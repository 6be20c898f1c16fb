import FlowDiagram.Layout.Layers
import FlowDiagram.Proofs.Lists
import Mathlib.Data.List.Forall2
import Mathlib.Data.List.Perm.Basic
/-!
# Layers keep their nodes

Whatever a sweep does, it sorts single layers. `ordered_perm` says that the layers that are
chosen in the end hold, rank by rank, exactly the nodes of the first layers, so that every
node stands in the layer of its rank (`mem_ordered`) and nowhere else
(`flatten_ordered_perm`).
-/

namespace FlowDiagram.Layout

namespace Layers

section

variable {ι : Type}

theorem insertByMean_perm (x : Mean × ι) (xs : List (Mean × ι)) :
    (insertByMean x xs).Perm (x :: xs) := by
  induction xs with
  | nil => exact .refl _
  | cons y ys ih =>
      rw [insertByMean]
      split
      · exact .refl _
      · exact (ih.cons y).trans (.swap x y ys)

theorem sortByMean_perm (xs : List (Mean × ι)) : (sortByMean xs).Perm xs := by
  induction xs with
  | nil => exact .refl _
  | cons x xs ih => exact (insertByMean_perm x _).trans (ih.cons x)

/-- Two ways to order layers hold the same nodes in each of them. -/
abbrev SameNodes (layers layers' : Layers ι) : Prop := List.Forall₂ List.Perm layers layers'

theorem SameNodes.refl (layers : Layers ι) : SameNodes layers layers :=
  List.forall₂_same.mpr fun _ _ => .refl _

theorem SameNodes.trans {first second third : Layers ι} (h : SameNodes first second)
    (h' : SameNodes second third) : SameNodes first third := by
  induction h generalizing third with
  | nil => exact h'
  | cons head tail ih =>
      cases h' with
      | cons head' tail' => exact .cons (head.trans head') (ih tail')

theorem SameNodes.flatten_perm {first second : Layers ι} (h : SameNodes first second) :
    first.flatten.Perm second.flatten := by
  induction h with
  | nil => exact .refl _
  | cons head tail ih => exact head.append ih

theorem sameNodes_modify (layers : Layers ι) (r : Nat) {f : List ι → List ι}
    (keeps : ∀ layer, (f layer).Perm layer) : SameNodes (layers.modify r f) layers := by
  induction layers generalizing r with
  | nil =>
      rw [List.modify_nil]
      exact .nil
  | cons layer rest ih =>
      cases r with
      | zero => exact .cons (keeps layer) (SameNodes.refl rest)
      | succ r => exact .cons (.refl layer) (ih r)

/-- Lists that are sorted out by a number below a bound are the list again. -/
theorem flatten_filter_perm (rank : ι → Nat) (order : List ι) (n : Nat) :
    (((List.range n).map fun r => order.filter (rank · = r)).flatten).Perm
      (order.filter (rank · < n)) := by
  induction n with
  | zero => simp
  | succ n ih =>
      rw [List.range_succ, List.map_append, List.flatten_append]
      have parts := List.filter_append_perm (fun v => decide (rank v < n))
        (order.filter (rank · < n + 1))
      have below : (order.filter (rank · < n + 1)).filter (rank · < n) =
          order.filter (rank · < n) := by
        rw [List.filter_filter]
        apply List.filter_congr
        intro v _
        rw [← Bool.decide_and, decide_eq_decide]
        omega
      have here : (order.filter (rank · < n + 1)).filter (fun v => !decide (rank v < n)) =
          order.filter (rank · = n) := by
        rw [List.filter_filter]
        apply List.filter_congr
        intro v _
        rw [← decide_not, ← Bool.decide_and, decide_eq_decide]
        omega
      rw [below, here] at parts
      refine (ih.append_right _).trans ?_
      simpa using parts

end

variable {ι : Type} [DecidableEq ι]

theorem sorted_perm (layers : Layers ι) (neighbours : ι → List ι) (layer : List ι) :
    (layers.sorted neighbours layer).Perm layer := by
  have nodes : (layer.zipIdx.map fun entry =>
      (layers.barycentre (neighbours entry.1) entry.2, entry.1)).map (·.2) = layer := by
    rw [List.map_map]
    exact List.zipIdx_map_fst 0 layer
  exact ((sortByMean_perm _).map _).trans (.of_eq nodes)

theorem sameNodes_sweep (neighbours : ι → List ι) (rs : List Nat) (layers : Layers ι) :
    SameNodes (sweep neighbours rs layers) layers := by
  induction rs generalizing layers with
  | nil => exact .refl layers
  | cons r rs ih => exact (ih _).trans (sameNodes_modify layers r (layers.sorted_perm neighbours))

theorem sameNodes_swept (g : Digraph ι) (round : Nat) (layers : Layers ι) :
    SameNodes (layers.swept g round) layers := by
  rw [swept]
  split
  · exact sameNodes_sweep _ _ _
  · exact sameNodes_sweep _ _ _

theorem sameNodes_improve (g : Digraph ι) (times round : Nat) {first layers best : Layers ι}
    (current : SameNodes layers first) (kept : SameNodes best first) :
    SameNodes (improve g times round layers best) first := by
  induction times generalizing round layers best with
  | zero => exact kept
  | succ n ih =>
      rw [improve]
      split
      · exact kept
      · have next := (sameNodes_swept g round layers).trans current
        refine ih _ next ?_
        split
        · exact next
        · exact kept

/-- The chosen layers hold the nodes of the first ones. -/
theorem ordered_perm (g : Digraph ι) (ranks : List (ι × Nat)) (order : List ι) :
    SameNodes (ordered g ranks order) (ofRanks ranks order) :=
  sameNodes_improve g 4 0 (.refl _) (.refl _)

/-! ## Ranks -/

/-- The rank of a node, and zero for a node without one. -/
def rankOf (ranks : List (ι × Nat)) (v : ι) : Nat := (ranks.lookup v).getD 0

/-- The number of layers for some ranks. -/
def count (ranks : List (ι × Nat)) : Nat := (ranks.map (·.2)).foldl max 0 + 1

theorem ofRanks_eq (ranks : List (ι × Nat)) (order : List ι) :
    ofRanks ranks order =
      (List.range (count ranks)).map fun r => order.filter (rankOf ranks · = r) := rfl

theorem rankOf_lt_count (ranks : List (ι × Nat)) (v : ι) : rankOf ranks v < count ranks := by
  rw [rankOf, count]
  cases found : ranks.lookup v with
  | none => exact Nat.succ_pos _
  | some r =>
      have member : r ∈ ranks.map (·.2) := List.mem_map_of_mem (mem_of_lookup found)
      have below := (List.max?_le_iff List.max?_cons').mp (Nat.le_refl _) r
        (List.mem_cons_of_mem 0 member)
      exact Nat.lt_succ_of_le below

/-- Together the layers hold each node as often as the order does. -/
theorem flatten_ofRanks_perm (ranks : List (ι × Nat)) (order : List ι) :
    (ofRanks ranks order).flatten.Perm order := by
  rw [ofRanks_eq]
  refine (flatten_filter_perm (rankOf ranks) order (count ranks)).trans (.of_eq ?_)
  exact List.filter_eq_self.mpr fun v _ => decide_eq_true (rankOf_lt_count ranks v)

theorem flatten_ordered_perm (g : Digraph ι) (ranks : List (ι × Nat)) (order : List ι) :
    (ordered g ranks order).flatten.Perm order :=
  (ordered_perm g ranks order).flatten_perm.trans (flatten_ofRanks_perm ranks order)

theorem length_ordered (g : Digraph ι) (ranks : List (ι × Nat)) (order : List ι) :
    (ordered g ranks order).length = count ranks := by
  rw [(ordered_perm g ranks order).length_eq, ofRanks_eq, List.length_map, List.length_range]

/-- Each node stands in the layer of its rank. -/
theorem mem_ordered (g : Digraph ι) (ranks : List (ι × Nat)) {order : List ι} {v : ι}
    (listed : v ∈ order) :
    ∃ h : rankOf ranks v < (ordered g ranks order).length,
      v ∈ (ordered g ranks order)[rankOf ranks v] := by
  have bound := rankOf_lt_count ranks v
  rw [← length_ordered g ranks order] at bound
  refine ⟨bound, ?_⟩
  have same := (ordered_perm g ranks order).get bound (by
    rw [← (ordered_perm g ranks order).length_eq]
    exact bound)
  refine same.mem_iff.mpr ?_
  simp [ofRanks_eq, listed]

end Layers

end FlowDiagram.Layout
