import FlowDiagram.Graph.Basic
import FlowDiagram.Proofs.Layout.Lifting
import FlowDiagram.Proofs.Lists
/-!
# The order of edges does not matter

Edges are lifted to containers, and there they give arcs. Where the arcs of a container lead
around in no circle, none is given up. What is left depends on their set alone: depths and ranks
on which arcs there are, means on the sum over all neighbours, and crossings on a count of pairs
(`content_congr`).

Only edges between nodes that are not nested in each other are lifted (`Lifts.counts`). So a
layout is the same for two lists of edges that have the same ones of these, in any order and any
number of times (`Graph.laidOut_of_same_edges`).
-/

namespace FlowDiagram.Layout

variable {ι : Type} [DecidableEq ι]

/-! ## Graphs -/

namespace Digraph

variable {g g' : Digraph ι}

/-- Two graphs have the same nodes and, in some order, the same arcs. -/
structure SameArcs (g g' : Digraph ι) : Prop where
  nodes : g.nodes = g'.nodes
  arcs : g.arcs.Perm g'.arcs

theorem sameArcs_ofLists (members : List ι) {arcs arcs' : List (ι × ι)}
    (same : ∀ a, a ∈ arcs ↔ a ∈ arcs') :
    SameArcs (ofLists members arcs) (ofLists members arcs') where
  nodes := rfl
  arcs := by
    refine (List.perm_ext_iff_of_nodup (nodup_eraseDups _) (nodup_eraseDups _)).mpr fun a => ?_
    rw [List.mem_eraseDups, List.mem_eraseDups, same]

theorem least_perm {ms ns : List Nat} (same : ms.Perm ns) : least ms = least ns := by
  obtain rfl | filled := eq_or_ne ms []
  · rw [List.nil_perm.mp same]
  · have filled' : ns ≠ [] := fun none => filled (List.perm_nil.mp (none ▸ same))
    exact Nat.le_antisymm (least_le (same.mem_iff.mpr (least_mem filled')))
      (least_le (same.mem_iff.mp (least_mem filled)))

namespace SameArcs

variable (h : g.SameArcs g')
include h

theorem successors (v : ι) : (g.successors v).Perm (g'.successors v) := (h.arcs.filter _).map _

theorem predecessors (v : ι) : (g.predecessors v).Perm (g'.predecessors v) :=
  (h.arcs.filter _).map _

theorem peel (n k : Nat) (rest : List ι) : g.peel n k rest = g'.peel n k rest := by
  induction n generalizing k rest with
  | zero => rfl
  | succ n ih =>
      have free : g.free rest = g'.free rest :=
        List.filter_congr fun v _ => (h.predecessors v).all_eq
      rw [peel_succ, peel_succ, free, ih]

theorem depth (v : ι) : g.depth v = g'.depth v := by
  rw [Digraph.depth, Digraph.depth, depths, depths, h.nodes, h.peel]

theorem rank (v : ι) : g.rank v = g'.rank v := by
  have depths : g.depth = g'.depth := funext h.depth
  rw [Digraph.rank, Digraph.rank, (h.predecessors v).isEmpty_eq, (h.successors v).isEmpty_eq,
    least_perm ((h.successors v).map g.depth), depths]

theorem ranks : g.ranks = g'.ranks := by
  rw [ranks_eq, ranks_eq, h.nodes]
  exact List.map_congr_left fun v _ => Prod.ext rfl (h.rank v)

end SameArcs

end Digraph

/-! ## Layers -/

namespace Layers

theorem total_perm {ms ns : List Nat} (same : ms.Perm ns) : total ms = total ns := by
  induction same with
  | nil => rfl
  | cons n same ih => rw [total, total, ih]
  | swap m n rest => simp only [total]; omega
  | trans first second ih ih' => exact ih.trans ih'

theorem barycentre_perm (layers : Layers ι) {vs ws : List ι} (same : vs.Perm ws) (here : Nat) :
    layers.barycentre vs here = layers.barycentre ws here := by
  rw [barycentre, barycentre, same.isEmpty_eq, same.length_eq, total_perm (same.map layers.place)]

section

variable {neighbours neighbours' : ι → List ι}
variable (same : ∀ v, (neighbours v).Perm (neighbours' v))
include same

theorem sorted_congr (layers : Layers ι) (layer : List ι) :
    layers.sorted neighbours layer = layers.sorted neighbours' layer := by
  simp only [sorted, barycentre_perm layers (same _)]

theorem sweep_congr (rs : List Nat) (layers : Layers ι) :
    sweep neighbours rs layers = sweep neighbours' rs layers := by
  induction rs generalizing layers with
  | nil => rfl
  | cons r rs ih => simp only [sweep, ih, sorted_congr same]

end

theorem crosses_comm (a b : Nat × Nat) : crosses a b = crosses b a := Bool.or_comm _ _

theorem crossingPairs_perm {as bs : List (Nat × Nat)} (same : as.Perm bs) :
    crossingPairs as = crossingPairs bs := by
  induction same with
  | nil => rfl
  | cons a same ih => rw [crossingPairs, crossingPairs, same.countP_eq, ih]
  | swap a b rest =>
      simp only [crossingPairs, List.countP_cons, crosses_comm b a]
      omega
  | trans first second ih ih' => exact ih.trans ih'

section

variable {g g' : Digraph ι} (h : g.SameArcs g')
include h

theorem crossings_congr (layers : Layers ι) : layers.crossings g = layers.crossings g' := by
  refine congrArg total (List.map_congr_left fun pair _ => crossingPairs_perm ?_)
  exact List.Perm.flatMap_left _ fun u _ => ((h.successors u).filter _).map _

theorem swept_congr (round : Nat) (layers : Layers ι) :
    layers.swept g round = layers.swept g' round := by
  simp only [swept, sweep_congr h.predecessors, sweep_congr h.successors]

theorem improve_congr (times round : Nat) (layers best : Layers ι) :
    improve g times round layers best = improve g' times round layers best := by
  induction times generalizing round layers best with
  | zero => rfl
  | succ n ih => simp only [improve, crossings_congr h, swept_congr h, ih]

theorem ordered_congr (ranks : List (ι × Nat)) (order : List ι) :
    ordered g ranks order = ordered g' ranks order :=
  improve_congr h 4 0 _ _

end

end Layers

/-! ## Frames -/

section

variable {α : Type} [Coordinate α]

/-- Where arcs rise, an arrangement depends on the set of arcs alone. -/
theorem content_congr {β : Type} [LinearOrder β] {f : ι → β} (s : Spacing α)
    {arcs arcs' : List (ι × ι)} (rising : Digraph.Rising f arcs)
    (same : ∀ a, a ∈ arcs ↔ a ∈ arcs') (frames : List (Frame ι α)) :
    content s arcs frames = content s arcs' frames := by
  have rising' : Digraph.Rising f arcs' := fun a listed => rising a ((same a).mpr listed)
  have whole : (Digraph.ofLists (frames.map Frame.id) arcs).acyclic =
      Digraph.ofLists (frames.map Frame.id) arcs :=
    Digraph.acyclic_eq (f := f) fun a listed => rising a (List.mem_eraseDups.mp listed)
  have whole' : (Digraph.ofLists (frames.map Frame.id) arcs').acyclic =
      Digraph.ofLists (frames.map Frame.id) arcs' :=
    Digraph.acyclic_eq (f := f) fun a listed => rising' a (List.mem_eraseDups.mp listed)
  have h := Digraph.sameArcs_ofLists (frames.map Frame.id) same
  simp only [content, whole, whole', h.ranks, Layers.ordered_congr h]

section

variable {arcs arcs' : List ι → List (ι × ι)} {items : List (Item ι)} {parents : Parents ι}
variable {s : Spacing α}

theorem enclose_nil (s : Spacing α) (arcs : List ι → List (ι × ι)) (id : ι) :
    enclose s arcs id [] = .mk id ⟨s.nodeWidth, s.nodeHeight⟩ [] := rfl

theorem enclose_congr {frames : List (Frame ι α)}
    (same : content s (arcs (frames.map Frame.id)) frames =
      content s (arcs' (frames.map Frame.id)) frames) (id : ι) :
    enclose s arcs id frames = enclose s arcs' id frames := by
  simp only [enclose, same]

variable (same : ∀ parent (frames : List (Frame ι α)),
  content s (arcs (Box.childrenOf items parents parent)) frames =
    content s (arcs' (Box.childrenOf items parents parent)) frames)
include same

theorem measure_grow_congr (n : Nat) (id : ι) :
    measure s arcs (Box.grow items parents n id) =
      measure s arcs' (Box.grow items parents n id) := by
  induction n generalizing id with
  | zero => rw [Box.grow, measure, measure, measureAll, measureAll, enclose_nil, enclose_nil]
  | succ n ih =>
      rw [measure_grow_succ, measure_grow_succ, ← List.map_congr_left fun child _ => ih child]
      apply enclose_congr
      have ids : ((Box.childrenOf items parents (some id)).map fun child =>
          measure s arcs (Box.grow items parents n child)).map Frame.id =
          Box.childrenOf items parents (some id) := by
        rw [List.map_map]
        exact List.map_id'' (id_measure_grow s arcs items parents n) _
      rw [ids]
      exact same (some id) _

theorem frames_forest_congr :
    measureAll s arcs (Box.forest items parents) = measureAll s arcs' (Box.forest items parents) ∧
      (measureAll s arcs (Box.forest items parents)).map Frame.id =
        Box.childrenOf items parents none := by
  rw [measureAll_eq_map, measureAll_eq_map, Box.forest, List.map_map, List.map_map, List.map_map]
  refine ⟨List.map_congr_left fun id _ => measure_grow_congr same items.length id, ?_⟩
  exact List.map_id'' (id_measure_grow s arcs items parents items.length) _

theorem outermost_congr :
    outermost s arcs (measureAll s arcs (Box.forest items parents)) =
      outermost s arcs' (measureAll s arcs' (Box.forest items parents)) := by
  obtain ⟨frames, ids⟩ := frames_forest_congr same
  rw [← frames, outermost, outermost, ids, same none]

end

end

/-! ## Layouts -/

open Parents Relation

section

variable {items : List (Item ι)} {edges edges' : List (ι × ι)} {e : ι × ι} {a b : ι}

/-- An edge matters to a layout if it joins two nodes of the list that are not nested in each
other. In particular these differ. -/
structure Counts (items : List (Item ι)) (e : ι × ι) : Prop where
  known : e.1 ∈ items.map (·.id)
  known' : e.2 ∈ items.map (·.id)
  apart : ¬Within (kept items) e.1 e.2
  apart' : ¬Within (kept items) e.2 e.1

/-- In no container arcs lead from a child back to itself. -/
def Circleless (items : List (Item ι)) (edges : List (ι × ι)) : Prop :=
  ∀ parent v, ¬TransGen (fun a b => (a, b) ∈ childArcs items edges parent) v v

theorem mem_of_within (distinct : (items.map (·.id)).Nodup) (lies : Within (kept items) a b)
    (known : a ∈ items.map (·.id)) : b ∈ items.map (·.id) := by
  cases lies with
  | self => exact known
  | step up above => exact (mem_of_lookup_kept distinct up).1

/-- Only edges that matter are lifted. -/
theorem Lifts.counts (distinct : (items.map (·.id)).Nodup) (h : Lifts items e a b) :
    Counts items e where
  known := mem_of_within distinct h.source h.known
  known' := mem_of_within distinct h.target h.known'
  apart := fun lies =>
    (grounded_kept items).apart h.other h.beside (h.source.trans lies) h.target
  apart' := fun lies =>
    (grounded_kept items).apart h.other h.beside h.source (h.target.trans lies)

/-- Where an order of the nodes rises along every edge in the container where its ends part, arcs
lead around in no circle. -/
theorem circleless_of_rises (height : ι → Nat)
    (rises : ∀ e ∈ edges, ∃ a b, Lifts items e a b ∧ height a < height b) :
    Circleless items edges := by
  intro parent v circle
  have path : ∀ b, TransGen (fun a b => (a, b) ∈ childArcs items edges parent) v b →
      height v < height b := by
    have step : ∀ a b, (a, b) ∈ childArcs items edges parent → height a < height b := by
      intro a b arc
      obtain ⟨e, member, lifts, -⟩ := mem_childArcs.mp arc
      obtain ⟨a', b', lifts', less⟩ := rises e member
      obtain ⟨rfl, rfl⟩ := lifts.unique lifts'
      exact less
    intro b path
    induction path with
    | single arc => exact step _ _ arc
    | tail before arc ih => exact ih.trans (step _ _ arc)
  exact (path v circle).false

variable (distinct : (items.map (·.id)).Nodup)
variable (same : ∀ e, Counts items e → (e ∈ edges ↔ e ∈ edges'))
include distinct same

theorem mem_childArcs_congr (parent : Option ι) (arc : ι × ι) :
    arc ∈ childArcs items edges parent ↔ arc ∈ childArcs items edges' parent := by
  obtain ⟨a, b⟩ := arc
  rw [mem_childArcs, mem_childArcs]
  refine exists_congr fun e => and_congr_left fun ⟨lifts, _⟩ => ?_
  exact same e (lifts.counts distinct)

/-- Without circles, a layout depends on the set of the edges that matter. -/
theorem placements_congr {α : Type} [Coordinate α] (s : Spacing α)
    (circleless : Circleless items edges) :
    placements s items edges = placements s items edges' := by
  have contents : ∀ parent (frames : List (Frame ι α)),
      content s ((kept items).liftedArcs edges (children items parent)) frames =
        content s ((kept items).liftedArcs edges' (children items parent)) frames := by
    intro parent frames
    have known : ∀ a b, (a, b) ∈ childArcs items edges parent →
        a ∈ (childArcs items edges parent).map Prod.fst := fun _ _ arc => List.mem_map_of_mem arc
    obtain ⟨height, rises⟩ := exists_height known (circleless parent)
    have rising : Digraph.Rising height (childArcs items edges parent) :=
      fun arc => rises arc.1 arc.2
    exact content_congr s rising (mem_childArcs_congr distinct same parent) frames
  rw [placements, placements, spots, spots, outermost_congr contents]

end

end FlowDiagram.Layout

namespace FlowDiagram.Graph

open Layout Parents

/-- Where arcs lead around in no circle in any container, a layout depends on the set of those
edges that join nodes which are not nested in each other. The order of edges, their repetition
and all other edges change nothing. -/
theorem laidOut_of_same_edges (s : Spacing Float) {g g' : Graph} (nodes : g.nodes = g'.nodes)
    (distinct : g.ids.Nodup) (circleless : Circleless g.items g.arcs)
    (same : ∀ e, Counts g.items e → (e ∈ g.arcs ↔ e ∈ g'.arcs)) :
    (g.laidOut s).nodes = (g'.laidOut s).nodes := by
  have items : g.items = g'.items := congrArg (List.map Node.item) nodes
  have placed := placements_congr ((ids_items g).symm ▸ distinct) same s circleless
  rw [laidOut, laidOut, placed, nodes, items]

/-- Two nodes in a group, one in front of it and one behind it. -/
def staged (edges : List Edge) : Graph where
  nodes := [
    { id := "pick", label := "" },
    { id := "pack", isGroup := true, label := "" },
    { id := "wrap", parent := some "pack", label := "" },
    { id := "label", parent := some "pack", label := "" },
    { id := "send", label := "" }]
  edges := edges

/-- An edge in the group and two across its border. -/
def stagedEdges : List Edge :=
  [⟨"", "pick", "wrap", none⟩, ⟨"", "wrap", "label", none⟩, ⟨"", "label", "send", none⟩]

/-- The same edges in another order, one of them twice, with edges that do not matter: from the
group to a node in it, to a missing node, and from a node to itself. -/
def restagedEdges : List Edge :=
  [⟨"", "label", "send", none⟩, ⟨"", "pack", "wrap", none⟩, ⟨"", "send", "nowhere", none⟩,
    ⟨"", "pick", "wrap", none⟩, ⟨"", "wrap", "label", none⟩, ⟨"", "send", "send", none⟩,
    ⟨"", "pick", "wrap", none⟩]

theorem wrap_within_pack : Within (kept (staged stagedEdges).items) "pack" "wrap" := .of_lookup rfl

theorem label_within_pack : Within (kept (staged stagedEdges).items) "pack" "label" :=
  .of_lookup rfl

theorem circleless_staged : Circleless (staged stagedEdges).items (staged stagedEdges).arcs := by
  refine circleless_of_rises (["pick", "pack", "wrap", "label", "send"].idxOf ·) ?_
  refine List.forall_mem_cons.mpr ⟨⟨"pick", "pack", ?_, by decide⟩,
    List.forall_mem_cons.mpr ⟨⟨"wrap", "label", ?_, by decide⟩,
      List.forall_mem_singleton.mpr ⟨"pack", "send", ?_, by decide⟩⟩⟩
  · exact ⟨by decide, by decide, rfl, by decide, .self, wrap_within_pack⟩
  · exact ⟨by decide, by decide, rfl, by decide, .self, .self⟩
  · exact ⟨by decide, by decide, rfl, by decide, label_within_pack, .self⟩

/-- Both lists of edges give the same picture. -/
theorem laidOut_of_same_edges_staged :
    (staged stagedEdges).nodes = (staged restagedEdges).nodes ∧ (staged stagedEdges).ids.Nodup ∧
      Circleless (staged stagedEdges).items (staged stagedEdges).arcs ∧
      (∀ e, Counts (staged stagedEdges).items e →
        (e ∈ (staged stagedEdges).arcs ↔ e ∈ (staged restagedEdges).arcs)) ∧
      ((staged stagedEdges).laidOut Settings.customary.spacing).nodes =
        ((staged restagedEdges).laidOut Settings.customary.spacing).nodes := by
  have distinct : (staged stagedEdges).ids.Nodup := by decide
  have fewer : ∀ e ∈ (staged stagedEdges).arcs, e ∈ (staged restagedEdges).arcs := by decide
  have more : ∀ e ∈ (staged restagedEdges).arcs, e ∈ (staged stagedEdges).arcs ∨
      e = ("pack", "wrap") ∨ e = ("send", "nowhere") ∨ e = ("send", "send") := by decide
  have same : ∀ e, Counts (staged stagedEdges).items e →
      (e ∈ (staged stagedEdges).arcs ↔ e ∈ (staged restagedEdges).arcs) := by
    refine fun e counts => ⟨fewer e, fun member => ?_⟩
    obtain listed | rfl | rfl | rfl := more e member
    · exact listed
    · exact absurd wrap_within_pack counts.apart
    · exact absurd counts.known' (by decide)
    · exact absurd .self counts.apart
  exact ⟨rfl, distinct, circleless_staged, same,
    laidOut_of_same_edges Settings.customary.spacing rfl distinct circleless_staged same⟩

end FlowDiagram.Graph
