import FlowDiagram.Layout.Basic
import FlowDiagram.Proofs.Layout.Forest
import FlowDiagram.Proofs.Layout.Ranks
import FlowDiagram.Proofs.Lists
import Mathlib.Data.List.Count
import Mathlib.Data.Prod.Basic
/-!
# Layouts under other names

A layout compares names and does nothing else with them. Here each of its steps, up to the order
inside layers, is shown to go along with a renaming that takes different names to different
ones: the parents that are kept, the arcs between the members of a container, the search for
cycles, the ranks (`Digraph.ranks_renamed`) and the layers (`Layers.ordered_renamed`).

No names need to differ, so nodes may occur several times, and arcs may lead around in circles.
A search meets the same nodes in the same order under their other names, so it stops at the same
arc, and the same arcs are given up.
-/

namespace FlowDiagram.Layout

variable {ι κ : Type} {f : ι → κ}

/-! ## Parents -/

/-- A node under another name. -/
def Item.renamed (f : ι → κ) (item : Item ι) : Item κ := ⟨f item.id, item.parent.map f⟩

theorem ids_renamed (f : ι → κ) (items : List (Item ι)) :
    (items.map (Item.renamed f)).map Item.id = (items.map Item.id).map f := by
  rw [List.map_map, List.map_map]
  rfl

namespace Parents

/-- Parents under other names. -/
def renamed (f : ι → κ) (parents : Parents ι) : Parents κ := parents.map (Prod.map f f)

theorem length_renamed (parents : Parents ι) : (parents.renamed f).length = parents.length :=
  List.length_map _

theorem keys_renamed (parents : Parents ι) :
    (parents.renamed f).map Prod.fst = (parents.map Prod.fst).map f := by
  rw [renamed, List.map_map, List.map_map]
  rfl

variable [DecidableEq ι] [DecidableEq κ] (injective : Function.Injective f)
include injective

theorem lookup_renamed (parents : Parents ι) (x : ι) :
    List.lookup (f x) (parents.renamed f) = (parents.lookup x).map f :=
  lookup_map_map injective f parents x

theorem name_renamed (id parent : ι) (parents : Parents ι) :
    name (f id) (f parent) (parents.renamed f) = (name id parent parents).renamed f := by
  induction parents with
  | nil => rfl
  | cons entry rest ih =>
      obtain ⟨i, p⟩ := entry
      simp only [renamed, List.map_cons, Prod.map_apply, name, injective.eq_iff] at ih ⊢
      split
      · rfl
      · rw [ih, List.map_cons, Prod.map_apply]

theorem usable?_renamed (ids : List ι) (item : Item ι) :
    usable? (ids.map f) (item.renamed f) = (usable? ids item).map f := by
  obtain ⟨id, _ | parent⟩ := item
  · rfl
  · simp only [usable?, Item.renamed, Option.map_some, Option.filter_some,
      List.mem_map_of_injective injective, injective.ne_iff]
    split <;> rfl

theorem declared_renamed (items : List (Item ι)) :
    declared (items.map (Item.renamed f)) = (declared items).renamed f := by
  rw [declared_eq, declared_eq, ids_renamed, List.foldl_map]
  change List.foldl _ (renamed f []) items = _
  apply List.foldl_hom (renamed f)
  intro parents item
  rw [declare, declare, usable?_renamed injective]
  cases usable? (items.map Item.id) item with
  | none => rfl
  | some p => exact name_renamed injective item.id p parents

theorem ends_renamed (parents : Parents ι) (n : Nat) (x : ι) :
    (parents.renamed f).ends n (f x) = parents.ends n x := by
  induction n generalizing x with
  | zero => rfl
  | succ n ih =>
      rw [ends, ends, lookup_renamed injective]
      cases parents.lookup x with
      | none => rfl
      | some p => exact ih p

theorem loops_renamed (parents : Parents ι) (x : ι) :
    (parents.renamed f).loops (f x) = parents.loops x := by
  rw [loops, loops, length_renamed, ends_renamed injective]

theorem forget_renamed (parents : Parents ι) (id : ι) :
    (parents.renamed f).forget (f id) = (parents.forget id).renamed f := by
  rw [forget, forget, renamed, renamed, List.filter_map]
  simp only [Function.comp_def, Prod.map_fst, injective.ne_iff]

theorem kept_renamed (items : List (Item ι)) :
    kept (items.map (Item.renamed f)) = (kept items).renamed f := by
  rw [kept_eq, kept_eq, declared_renamed injective, keys_renamed, cut, cut, List.foldl_map]
  apply List.foldl_hom (renamed f)
  intro parents id
  rw [loops_renamed injective, forget_renamed injective]
  split <;> rfl

theorem lift_renamed (parents : Parents ι) (members : List ι) (n : Nat) (x : ι) :
    (parents.renamed f).lift (members.map f) n (f x) = (parents.lift members n x).map f := by
  induction n generalizing x with
  | zero => rfl
  | succ n ih =>
      simp only [lift, List.mem_map_of_injective injective, lookup_renamed injective]
      split
      · rfl
      · cases parents.lookup x with
        | none => rfl
        | some p => exact ih p

theorem liftedArcs_renamed (parents : Parents ι) (edges : List (ι × ι)) (members : List ι) :
    (parents.renamed f).liftedArcs (edges.map (Prod.map f f)) (members.map f) =
      (parents.liftedArcs edges members).map (Prod.map f f) := by
  rw [liftedArcs, liftedArcs, List.filterMap_map, List.map_filterMap]
  apply List.filterMap_congr
  rintro ⟨source, target⟩ -
  simp only [Function.comp_apply, Prod.map_apply, length_renamed, lift_renamed injective]
  cases parents.lift members (parents.length + 1) source with
  | none => rfl
  | some u =>
      cases parents.lift members (parents.length + 1) target with
      | none => rfl
      | some v =>
          simp only [Option.map_some, injective.eq_iff]
          split <;> rfl

end Parents

theorem childrenOf_renamed [DecidableEq ι] [DecidableEq κ] (injective : Function.Injective f)
    (items : List (Item ι)) (parents : Parents ι) (parent : Option ι) :
    Box.childrenOf (items.map (Item.renamed f)) (parents.renamed f) (parent.map f) =
      (Box.childrenOf items parents parent).map f := by
  rw [Box.childrenOf, Box.childrenOf, ids_renamed, List.filter_map]
  simp only [Function.comp_def, Parents.lookup_renamed injective,
    (Option.map_injective injective).eq_iff]

/-! ## Graphs -/

namespace Digraph

/-- A graph under other names. -/
def renamed (f : ι → κ) (g : Digraph ι) : Digraph κ := ⟨g.nodes.map f, g.arcs.map (Prod.map f f)⟩

/-- What a search has found, under other names. -/
def renamedSearch (f : ι → κ) (found : Except (ι × ι) (List ι)) : Except (κ × κ) (List κ) :=
  (found.mapError (Prod.map f f)).map (List.map f)

variable [DecidableEq ι] [DecidableEq κ]

/-- What a search does with a successor of a node. -/
def visit (g : Digraph ι) (n : Nat) (path : List ι) (u : ι) (done : List ι) (v : ι) :
    Except (ι × ι) (List ι) :=
  if v ∈ path then .error (u, v) else if v ∈ done then .ok done else g.explore n (v :: path) done v

theorem explore_succ (g : Digraph ι) (n : Nat) (path done : List ι) (u : ι) :
    g.explore (n + 1) path done u =
      ((g.successors u).foldlM (g.visit n path u) done).map (u :: ·) := by
  rw [explore]
  change Except.bind (List.foldlM (g.visit n path u) done (g.successors u)) _ = _
  cases List.foldlM (g.visit n path u) done (g.successors u) <;> rfl

/-- A search from one more node. -/
def start (g : Digraph ι) (done : List ι) (u : ι) : Except (ι × ι) (List ι) :=
  if u ∈ done then .ok done else g.explore (g.nodes.length + 1) [u] done u

theorem closingArc?_eq (g : Digraph ι) :
    g.closingArc? = match g.nodes.foldlM g.start [] with
      | .error a => some a
      | .ok _ => none := rfl

variable (injective : Function.Injective f)
include injective

theorem ofLists_renamed (nodes : List ι) (arcs : List (ι × ι)) :
    ofLists (nodes.map f) (arcs.map (Prod.map f f)) = (ofLists nodes arcs).renamed f := by
  rw [ofLists, eraseDups_map injective, eraseDups_map (injective.prodMap injective)]
  rfl

theorem successors_renamed (g : Digraph ι) (v : ι) :
    (g.renamed f).successors (f v) = (g.successors v).map f := by
  rw [successors, successors, renamed, List.filter_map, List.map_map, List.map_map]
  simp only [Function.comp_def, Prod.map_fst, Prod.map_snd, injective.eq_iff]

theorem predecessors_renamed (g : Digraph ι) (v : ι) :
    (g.renamed f).predecessors (f v) = (g.predecessors v).map f := by
  rw [predecessors, predecessors, renamed, List.filter_map, List.map_map, List.map_map]
  simp only [Function.comp_def, Prod.map_fst, Prod.map_snd, injective.eq_iff]

theorem explore_renamed (g : Digraph ι) (n : Nat) (path done : List ι) (u : ι) :
    (g.renamed f).explore n (path.map f) (done.map f) (f u) =
      renamedSearch f (g.explore n path done u) := by
  induction n generalizing path done u with
  | zero => rfl
  | succ n ih =>
      have each : ∀ v ∈ g.successors u, ∀ done : List ι,
          (g.renamed f).visit n (path.map f) (f u) (done.map f) (f v) =
            renamedSearch f (g.visit n path u done v) := by
        intro v _ done
        simp only [visit, List.mem_map_of_injective injective]
        split
        · rfl
        · split
          · rfl
          · exact ih (v :: path) done v
      have search := foldlM_map_map (List.map f) f (Prod.map f f) each done
      rw [explore_succ, explore_succ, successors_renamed injective, search]
      cases List.foldlM (g.visit n path u) done (g.successors u) <;> rfl

theorem closingArc?_renamed (g : Digraph ι) :
    (g.renamed f).closingArc? = g.closingArc?.map (Prod.map f f) := by
  have each : ∀ u ∈ g.nodes, ∀ done : List ι,
      (g.renamed f).start (done.map f) (f u) = renamedSearch f (g.start done u) := by
    intro u _ done
    simp only [start, List.mem_map_of_injective injective]
    split
    · rfl
    · rw [renamed, List.length_map]
      exact explore_renamed injective g _ [u] done u
  have search := foldlM_map_map (List.map f) f (Prod.map f f) each []
  rw [closingArc?_eq, closingArc?_eq]
  change (match List.foldlM (g.renamed f).start (List.map f []) (g.nodes.map f) with
    | .error a => some a
    | .ok _ => none) = _
  rw [search]
  cases List.foldlM g.start [] g.nodes <;> rfl

theorem acyclic_renamed (g : Digraph ι) : (g.renamed f).acyclic = g.acyclic.renamed f := by
  have steps : ∀ (n : Nat) (g : Digraph ι),
      breakCycles n (g.renamed f) = (breakCycles n g).renamed f := by
    intro n
    induction n with
    | zero => exact fun g => rfl
    | succ n ih =>
        intro g
        rw [breakCycles, breakCycles, closingArc?_renamed injective]
        cases g.closingArc? with
        | none => rfl
        | some a =>
            refine Eq.trans (congrArg (breakCycles n) ?_) (ih (g.erase a))
            rw [erase, erase, renamed, renamed, List.map_erase (injective.prodMap injective)]
  rw [acyclic, acyclic, ← steps, renamed, List.length_map]

theorem peel_renamed (g : Digraph ι) (n k : Nat) (rest : List ι) :
    (g.renamed f).peel n k (rest.map f) = (g.peel n k rest).map (Prod.map f id) := by
  induction n generalizing k rest with
  | zero => rfl
  | succ n ih =>
      have free : (g.renamed f).free (rest.map f) = (g.free rest).map f := by
        rw [Digraph.free, Digraph.free, List.filter_map]
        simp only [Function.comp_def, predecessors_renamed injective, List.all_map,
          List.mem_map_of_injective injective]
      rw [peel_succ, peel_succ, free, List.filter_map, List.map_append, ← ih, List.map_map,
        List.map_map]
      simp only [Function.comp_def, List.mem_map_of_injective injective, Prod.map_apply, id]

theorem depth_renamed (g : Digraph ι) (v : ι) : (g.renamed f).depth (f v) = g.depth v := by
  have depths : (g.renamed f).depths = g.depths.map (Prod.map f id) := by
    rw [Digraph.depths, Digraph.depths, ← peel_renamed injective, renamed, List.length_map]
  rw [depth, depth, depths, lookup_map_map injective, Option.map_id, id]

theorem rank_renamed (g : Digraph ι) (v : ι) : (g.renamed f).rank (f v) = g.rank v := by
  rw [rank, rank, predecessors_renamed injective, successors_renamed injective,
    depth_renamed injective, List.map_map, List.isEmpty_map, List.isEmpty_map]
  simp only [Function.comp_def, depth_renamed injective]

theorem ranks_renamed (g : Digraph ι) : (g.renamed f).ranks = g.ranks.map (Prod.map f id) := by
  rw [ranks_eq, ranks_eq, renamed, List.map_map, List.map_map]
  exact List.map_congr_left fun v _ => Prod.ext rfl (rank_renamed injective g v)

end Digraph

/-! ## Layers -/

namespace Layers

/-- Layers under other names. -/
def renamed (f : ι → κ) (layers : Layers ι) : Layers κ := layers.map (List.map f)

theorem sortByMean_renamed (f : ι → κ) (xs : List (Mean × ι)) :
    sortByMean (xs.map (Prod.map id f)) = (sortByMean xs).map (Prod.map id f) := by
  have insert : ∀ (x : Mean × ι) (xs : List (Mean × ι)),
      insertByMean (Prod.map id f x) (xs.map (Prod.map id f)) =
        (insertByMean x xs).map (Prod.map id f) := by
    intro x xs
    induction xs with
    | nil => rfl
    | cons y ys ih =>
        simp only [List.map_cons, insertByMean, ih, Prod.map_fst, id]
        split <;> rfl
  induction xs with
  | nil => rfl
  | cons x xs ih =>
      change insertByMean _ (sortByMean _) = _
      rw [ih, insert]
      rfl

theorem sorted_eq [DecidableEq ι] (layers : Layers ι) (neighbours : ι → List ι) (layer : List ι) :
    layers.sorted neighbours layer =
      (sortByMean (layer.zipIdx.map fun entry =>
        (layers.barycentre (neighbours entry.1) entry.2, entry.1))).map Prod.snd := rfl

variable [DecidableEq ι] [DecidableEq κ] (injective : Function.Injective f)
include injective

theorem ofRanks_renamed (ranks : List (ι × Nat)) (order : List ι) :
    ofRanks (ranks.map (Prod.map f id)) (order.map f) = (ofRanks ranks order).renamed f := by
  simp only [ofRanks, renamed, List.map_map, List.filter_map, Function.comp_def, Prod.map_snd, id,
    lookup_map_map injective, Option.map_id]

theorem lastPlace?_renamed (v : ι) (layer : List ι) :
    lastPlace? (f v) (layer.map f) = lastPlace? v layer := by
  induction layer with
  | nil => rfl
  | cons w rest ih => simp only [List.map_cons, lastPlace?, ih, injective.eq_iff]

theorem place_renamed (layers : Layers ι) (v : ι) :
    place (layers.renamed f) (f v) = layers.place v := by
  rw [place, place, renamed, List.findSome?_map]
  simp only [Function.comp_def, lastPlace?_renamed injective]

theorem barycentre_renamed (layers : Layers ι) (neighbours : List ι) (here : Nat) :
    barycentre (layers.renamed f) (neighbours.map f) here = layers.barycentre neighbours here := by
  simp only [barycentre, List.isEmpty_map, List.map_map, List.length_map, Function.comp_def,
    place_renamed injective]

section

variable {neighbours : ι → List ι} {neighbours' : κ → List κ}
variable (each : ∀ v, neighbours' (f v) = (neighbours v).map f)
include each

theorem sorted_renamed (layers : Layers ι) (layer : List ι) :
    sorted (layers.renamed f) neighbours' (layer.map f) =
      (layers.sorted neighbours layer).map f := by
  have keys : ((layer.map f).zipIdx.map fun entry =>
      (barycentre (layers.renamed f) (neighbours' entry.1) entry.2, entry.1)) =
      (layer.zipIdx.map fun entry =>
        (layers.barycentre (neighbours entry.1) entry.2, entry.1)).map (Prod.map id f) := by
    rw [List.zipIdx_map, List.map_map, List.map_map]
    refine List.map_congr_left fun entry _ => ?_
    simp only [Function.comp_apply, Prod.map_fst, Prod.map_snd, Prod.map_apply, id, each,
      barycentre_renamed injective]
  rw [sorted_eq, sorted_eq, keys, sortByMean_renamed, List.map_map, List.map_map]
  rfl

theorem sweep_renamed (rs : List Nat) (layers : Layers ι) :
    sweep neighbours' rs (layers.renamed f) = (sweep neighbours rs layers).renamed f := by
  induction rs generalizing layers with
  | nil => rfl
  | cons r rs ih =>
      rw [sweep, sweep, ← ih]
      have one := modify_map (sorted_renamed injective each layers) layers r
      exact congrArg (sweep neighbours' rs) one

end

theorem arcsBetween_renamed (g : Digraph ι) (layers : Layers ι) (left right : List ι) :
    arcsBetween (g.renamed f) (layers.renamed f) (left.map f) (right.map f) =
      arcsBetween g layers left right := by
  simp only [arcsBetween, List.flatMap_map, Digraph.successors_renamed injective, List.filter_map,
    List.map_map, Function.comp_def, List.mem_map_of_injective injective,
    place_renamed injective]

theorem crossings_renamed (g : Digraph ι) (layers : Layers ι) :
    crossings (g.renamed f) (layers.renamed f) = layers.crossings g := by
  rw [crossings, crossings, renamed, ← List.map_tail, List.zip_map, List.map_map]
  refine congrArg total (List.map_congr_left fun pair _ => ?_)
  exact congrArg crossingPairs (arcsBetween_renamed injective g layers pair.1 pair.2)

theorem swept_renamed (g : Digraph ι) (round : Nat) (layers : Layers ι) :
    swept (g.renamed f) round (layers.renamed f) = (layers.swept g round).renamed f := by
  have length : (layers.renamed f).length = layers.length := List.length_map _
  simp only [swept, length]
  split
  · exact sweep_renamed injective (Digraph.predecessors_renamed injective g) _ layers
  · exact sweep_renamed injective (Digraph.successors_renamed injective g) _ layers

theorem improve_renamed (g : Digraph ι) (times round : Nat) (layers best : Layers ι) :
    improve (g.renamed f) times round (layers.renamed f) (best.renamed f) =
      (improve g times round layers best).renamed f := by
  induction times generalizing round layers best with
  | zero => rfl
  | succ n ih =>
      simp only [improve, crossings_renamed injective, swept_renamed injective]
      split
      · rfl
      · rw [← ih]
        congr 1
        split <;> rfl

theorem ordered_renamed (g : Digraph ι) (ranks : List (ι × Nat)) (order : List ι) :
    ordered (g.renamed f) (ranks.map (Prod.map f id)) (order.map f) =
      (ordered g ranks order).renamed f := by
  simp only [ordered, ofRanks_renamed injective]
  exact improve_renamed injective g 4 0 _ _

end Layers

end FlowDiagram.Layout
