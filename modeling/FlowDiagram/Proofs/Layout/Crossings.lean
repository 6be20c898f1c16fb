import FlowDiagram.Proofs.Layout.Layers
import FlowDiagram.Proofs.Layout.Ranking
import Mathlib.Algebra.BigOperators.Group.Finset.Piecewise
import Mathlib.Algebra.BigOperators.Group.Finset.Sigma
import Mathlib.Data.Finset.Prod
/-!
# The order with the fewest crossings is kept

Two arcs between the same layers cross if the one that begins above ends below. What the layout
compares is the number of such pairs (`crossings_eq_card`): in layers without repetitions the
place of a node is its index, and each pair is counted once, from the arc that begins above.

The sweeps form a sequence of orders, each made from the one before. After any number of them the
best order so far is the first one with the fewest crossings among all that were reached
(`Best.succ`), and none is left out by stopping early, since there are not fewer than none
(`Best.of_none`).
-/

namespace FlowDiagram.Layout

namespace Layers

/-! ## Places -/

section

variable {ι : Type} [DecidableEq ι] {layers : Layers ι} {layer : List ι} {u v : ι}

/-- One node stands above another in a layer. -/
def Above (layer : List ι) (u v : ι) : Prop :=
  u ∈ layer ∧ v ∈ layer ∧ layer.idxOf u < layer.idxOf v

instance (layer : List ι) (u v : ι) : Decidable (Above layer u v) :=
  inferInstanceAs (Decidable (_ ∧ _ ∧ _))

theorem lastPlace?_of_not_mem (absent : v ∉ layer) : lastPlace? v layer = none := by
  induction layer with
  | nil => rfl
  | cons w rest ih =>
      obtain ⟨other, absent⟩ := not_or.mp (List.mem_cons.not.mp absent)
      rw [lastPlace?, ih absent, if_neg (Ne.symm other)]

theorem lastPlace?_of_mem (distinct : layer.Nodup) (member : v ∈ layer) :
    lastPlace? v layer = some (layer.idxOf v) := by
  induction layer with
  | nil => contradiction
  | cons w rest ih =>
      obtain ⟨fresh, distinct⟩ := List.nodup_cons.mp distinct
      rw [lastPlace?]
      obtain rfl | later := List.mem_cons.mp member
      · rw [lastPlace?_of_not_mem fresh, if_pos rfl, List.idxOf_cons_self]
      · have other : w ≠ v := fun same => fresh (same ▸ later)
        rw [ih distinct later, List.idxOf_cons_ne _ other]

/-- Where no node is repeated, the place of a node is its index in its layer. -/
theorem place_eq_idxOf (distinct : layers.flatten.Nodup) (listed : layer ∈ layers)
    (member : v ∈ layer) : layers.place v = layer.idxOf v := by
  induction layers with
  | nil => contradiction
  | cons first rest ih =>
      rw [List.flatten_cons, List.nodup_append] at distinct
      obtain ⟨own, others, apart⟩ := distinct
      rw [place, List.findSome?_cons]
      obtain rfl | later := List.mem_cons.mp listed
      · rw [lastPlace?_of_mem own member]
        rfl
      · have absent : v ∉ first := fun again =>
          apart v again v (List.mem_flatten.mpr ⟨layer, later, member⟩) rfl
        rw [lastPlace?_of_not_mem absent]
        exact ih others later

end

/-! ## Pairs -/

section

variable {α β : Type}

/-- The first arc begins above the second and ends below it. -/
def Inverts (a b : Nat × Nat) : Prop := a.1 < b.1 ∧ b.2 < a.2

instance (a b : Nat × Nat) : Decidable (Inverts a b) := inferInstanceAs (Decidable (_ ∧ _))

/-- Arcs cross in one of two ways. -/
theorem crosses_eq (a b : Nat × Nat) :
    (if crosses a b then 1 else 0) =
      (if Inverts a b then 1 else 0) + if Inverts b a then 1 else 0 := by
  simp only [crosses, Inverts]
  grind

theorem pairwise_zip {R : α → α → Prop} {list : List α} (pairwise : list.Pairwise R)
    (others : List β) : (list.zip others).Pairwise fun p q => R p.1 q.1 := by
  induction list generalizing others with
  | nil => exact List.Pairwise.nil
  | cons a rest ih =>
      obtain ⟨first, later⟩ := List.pairwise_cons.mp pairwise
      cases others with
      | nil => exact List.Pairwise.nil
      | cons b others =>
          refine List.pairwise_cons.mpr ⟨fun p member => first _ ?_, ih later others⟩
          exact (List.of_mem_zip member).1

variable [DecidableEq α]

theorem countP_eq_sum {list : List α} (distinct : list.Nodup) (p : α → Bool) :
    list.countP p = ∑ x ∈ list.toFinset, if p x then 1 else 0 := by
  rw [List.countP_eq_length_filter, ← List.toFinset_card_of_nodup (distinct.filter p),
    List.toFinset_filter, Finset.card_filter]

/-- Each crossing pair is counted once, from the arc that begins above. -/
theorem crossingPairs_map (f : α → Nat × Nat) {list : List α} (distinct : list.Nodup) :
    crossingPairs (list.map f) =
      ((list.toFinset ×ˢ list.toFinset).filter fun p => Inverts (f p.1) (f p.2)).card := by
  rw [Finset.card_filter, Finset.sum_product]
  induction list with
  | nil => rfl
  | cons a rest ih =>
      obtain ⟨fresh, distinct⟩ := List.nodup_cons.mp distinct
      have new : a ∉ rest.toFinset := fun again => fresh (List.mem_toFinset.mp again)
      have itself : ¬Inverts (f a) (f a) := fun h => Nat.lt_irrefl _ h.1
      have here : (rest.map f).countP (crosses (f a)) =
          (∑ b ∈ rest.toFinset, if Inverts (f a) (f b) then 1 else 0) +
            ∑ b ∈ rest.toFinset, if Inverts (f b) (f a) then 1 else 0 := by
        rw [List.countP_map, countP_eq_sum distinct, ← Finset.sum_add_distrib]
        exact Finset.sum_congr rfl fun b _ => crosses_eq (f a) (f b)
      rw [List.map_cons, crossingPairs, here, ih distinct, List.toFinset_cons]
      simp only [Finset.sum_insert new, Finset.sum_add_distrib, if_neg itself]
      omega

/-- What holds for one element of a list is counted for each element, if it holds for no two. -/
theorem card_filter_exists (s : Finset α) {holds : β → α → Prop}
    [∀ b, DecidablePred (holds b)] {list : List β}
    (apart : list.Pairwise fun b b' => ∀ x, holds b x → ¬holds b' x) :
    (s.filter fun x => ∃ b ∈ list, holds b x).card =
      total (list.map fun b => (s.filter (holds b)).card) := by
  induction list with
  | nil => simp [total]
  | cons b rest ih =>
      obtain ⟨others, apart⟩ := List.pairwise_cons.mp apart
      have disjoint : Disjoint (s.filter (holds b)) (s.filter fun x => ∃ b ∈ rest, holds b x) := by
        apply Finset.disjoint_filter.mpr
        rintro x - here ⟨b', later, there⟩
        exact others b' later x here there
      rw [List.map_cons, total, ← ih apart, ← Finset.card_union_of_disjoint disjoint,
        ← Finset.filter_or]
      simp only [List.mem_cons, exists_eq_or_imp]

end

/-! ## Arcs -/

section

variable {ι : Type} [DecidableEq ι] {g : Digraph ι} {layers : Layers ι} {left right : List ι}
variable {a b : ι × ι}

/-- Two arcs lead from a layer to the next one, and the first of them begins above the second and
ends below it. -/
def Crossed (layers : Layers ι) (a b : ι × ι) : Prop :=
  ∃ pair ∈ layers.zip layers.tail, Above pair.1 a.1 b.1 ∧ Above pair.2 b.2 a.2

instance (layers : Layers ι) (a b : ι × ι) : Decidable (Crossed layers a b) :=
  inferInstanceAs (Decidable (∃ pair ∈ layers.zip layers.tail, _))

/-- The pairs of arcs that cross between adjacent layers. -/
def crossed (g : Digraph ι) (layers : Layers ι) : Finset ((ι × ι) × (ι × ι)) :=
  (g.arcs.toFinset ×ˢ g.arcs.toFinset).filter fun p => Crossed layers p.1 p.2

/-- The arcs from one layer to another. -/
def between (g : Digraph ι) (left right : List ι) : List (ι × ι) :=
  left.flatMap fun u => ((g.successors u).filter (· ∈ right)).map fun v => (u, v)

theorem mem_between : a ∈ between g left right ↔ a ∈ g.arcs ∧ a.1 ∈ left ∧ a.2 ∈ right := by
  obtain ⟨u, v⟩ := a
  simp only [between, List.mem_flatMap, List.mem_map, List.mem_filter, Digraph.mem_successors,
    decide_eq_true_eq, Prod.mk.injEq]
  grind

theorem nodup_between (arcs : g.arcs.Nodup) (distinct : left.Nodup) :
    (between g left right).Nodup := by
  apply List.nodup_flatMap.mpr
  refine ⟨fun u _ => ?_, distinct.imp fun {u w} other => ?_⟩
  · have successors : (g.successors u).Nodup := by
      rw [Digraph.successors]
      refine (arcs.filter _).map_on ?_
      rintro ⟨x, y⟩ hx ⟨x', y'⟩ hy same
      have from_u := of_decide_eq_true (List.mem_filter.mp hx).2
      have from_u' := of_decide_eq_true (List.mem_filter.mp hy).2
      exact Prod.ext (from_u.trans from_u'.symm) same
    exact (successors.filter _).map fun v w same => (Prod.mk.inj same).2
  · intro arc here there
    obtain ⟨v, -, rfl⟩ := List.mem_map.mp here
    obtain ⟨v', -, same⟩ := List.mem_map.mp there
    exact other (Prod.mk.inj same).1.symm

theorem arcsBetween_eq (g : Digraph ι) (layers : Layers ι) (left right : List ι) :
    arcsBetween g layers left right =
      (between g left right).map fun a => (layers.place a.1, layers.place a.2) := by
  simp only [arcsBetween, between, List.map_flatMap, List.map_map, Function.comp_def]

variable (distinct : layers.flatten.Nodup)
include distinct

/-- Between two layers, the layout counts the pairs of arcs that cross. -/
theorem crossingPairs_between (arcs : g.arcs.Nodup) (hl : left ∈ layers) (hr : right ∈ layers) :
    crossingPairs (arcsBetween g layers left right) =
      ((g.arcs.toFinset ×ˢ g.arcs.toFinset).filter fun p =>
        Above left p.1.1 p.2.1 ∧ Above right p.2.2 p.1.2).card := by
  have own : left.Nodup := (List.nodup_flatten.mp distinct).1 left hl
  rw [arcsBetween_eq, crossingPairs_map _ (nodup_between arcs own)]
  apply congrArg Finset.card
  ext ⟨a, b⟩
  simp only [Finset.mem_filter, Finset.mem_product, List.mem_toFinset, mem_between]
  constructor
  · rintro ⟨⟨⟨ha, a_left, a_right⟩, hb, b_left, b_right⟩, above, below⟩
    rw [place_eq_idxOf distinct hl a_left, place_eq_idxOf distinct hl b_left] at above
    rw [place_eq_idxOf distinct hr a_right, place_eq_idxOf distinct hr b_right] at below
    exact ⟨⟨ha, hb⟩, ⟨a_left, b_left, above⟩, b_right, a_right, below⟩
  · rintro ⟨⟨ha, hb⟩, ⟨a_left, b_left, above⟩, b_right, a_right, below⟩
    rw [place_eq_idxOf distinct hl a_left, place_eq_idxOf distinct hl b_left,
      place_eq_idxOf distinct hr a_right, place_eq_idxOf distinct hr b_right]
    exact ⟨⟨⟨ha, a_left, a_right⟩, hb, b_left, b_right⟩, above, below⟩

/-- What the layout compares is the number of pairs of arcs that cross. -/
theorem crossings_eq_card (arcs : g.arcs.Nodup) :
    layers.crossings g = (crossed g layers).card := by
  have apart : (layers.zip layers.tail).Pairwise fun pair pair' => ∀ p : (ι × ι) × (ι × ι),
      (Above pair.1 p.1.1 p.2.1 ∧ Above pair.2 p.2.2 p.1.2) →
        ¬(Above pair'.1 p.1.1 p.2.1 ∧ Above pair'.2 p.2.2 p.1.2) := by
    have disjoint := pairwise_zip (List.nodup_flatten.mp distinct).2 layers.tail
    exact disjoint.imp fun away p here there => away here.1.1 there.1.1
  have counted := card_filter_exists (g.arcs.toFinset ×ˢ g.arcs.toFinset) apart
  rw [crossings, crossed]
  refine Eq.trans (congrArg total (List.map_congr_left fun pair member => ?_)) counted.symm
  obtain ⟨hl, hr⟩ := List.of_mem_zip member
  exact crossingPairs_between distinct arcs hl (List.mem_of_mem_tail hr)

end

/-! ## Sweeps -/

section

variable {ι : Type} [DecidableEq ι] {g : Digraph ι} {first : Layers ι} {n k : Nat}

/-- The order after a number of sweeps. -/
def reached (g : Digraph ι) (first : Layers ι) : Nat → Layers ι
  | 0 => first
  | n + 1 => (reached g first n).swept g n

/-- Among the orders that some sweeps reach, the first one of those with the fewest crossings. -/
structure Best (g : Digraph ι) (first : Layers ι) (n k : Nat) : Prop where
  within : k ≤ n
  fewest : ∀ j ≤ n, (reached g first k).crossings g ≤ (reached g first j).crossings g
  earliest : ∀ j < k, (reached g first k).crossings g < (reached g first j).crossings g

theorem Best.zero (g : Digraph ι) (first : Layers ι) : Best g first 0 0 where
  within := Nat.le_refl 0
  fewest j before := by rw [Nat.le_zero.mp before]
  earliest _ before := absurd before (Nat.not_lt_zero _)

/-- One more sweep is better than the best order so far, or it changes nothing. -/
theorem Best.succ (best : Best g first n k) :
    Best g first (n + 1)
      (if (reached g first (n + 1)).crossings g < (reached g first k).crossings g then n + 1
        else k) := by
  split
  · next better =>
      refine ⟨Nat.le_refl _, fun j before => ?_, fun j before => ?_⟩
      · obtain earlier | rfl := Nat.le_succ_iff.mp before
        · exact better.le.trans (best.fewest j earlier)
        · exact Nat.le_refl _
      · exact better.trans_le (best.fewest j (Nat.le_of_lt_succ before))
  · next worse =>
      refine ⟨Nat.le_succ_of_le best.within, fun j before => ?_, best.earliest⟩
      obtain earlier | rfl := Nat.le_succ_iff.mp before
      · exact best.fewest j earlier
      · exact Nat.le_of_not_lt worse

/-- Where nothing crosses, no sweep can do better. -/
theorem Best.of_none (best : Best g first n k) (none : (reached g first k).crossings g = 0)
    {m : Nat} (more : n ≤ m) : Best g first m k where
  within := best.within.trans more
  fewest _ _ := none ▸ Nat.zero_le _
  earliest := best.earliest

/-- Improving the best order so far ends at the best order of all. -/
theorem exists_improve_eq (times : Nat) (best : Best g first n k) :
    ∃ m, improve g times n (reached g first n) (reached g first k) = reached g first m ∧
      Best g first (n + times) m := by
  induction times generalizing n k with
  | zero => exact ⟨k, rfl, best⟩
  | succ times ih =>
      rw [improve]
      split
      · next none => exact ⟨k, rfl, best.of_none none (Nat.le_add_right _ _)⟩
      · have next := ih best.succ
        rw [apply_ite (reached g first), Nat.add_right_comm] at next
        exact next

theorem exists_ordered_eq (g : Digraph ι) (ranks : List (ι × Nat)) (order : List ι) :
    ∃ k, ordered g ranks order = reached g (ofRanks ranks order) k ∧
      Best g (ofRanks ranks order) 4 k :=
  exists_improve_eq 4 (Best.zero g _)

theorem nodup_reached (distinct : first.flatten.Nodup) (n : Nat) :
    (reached g first n).flatten.Nodup := by
  have same : SameNodes (reached g first n) first := by
    induction n with
    | zero => exact .refl first
    | succ n ih => exact (sameNodes_swept g n _).trans ih
  exact same.flatten_perm.nodup_iff.mpr distinct

end

end Layers

namespace Digraph

open Layers

variable {ι : Type} [DecidableEq ι] {g : Digraph ι} {order : List ι}

/-- Each layer holds the nodes of its rank. -/
theorem perm_of_layer (g : Digraph ι) (order : List ι) {r : Nat} {layer : List ι}
    (found : (ordered g g.ranks order)[r]? = some layer) :
    layer.Perm (order.filter (rankOf g.ranks · = r)) := by
  obtain ⟨bound, rfl⟩ := List.getElem?_eq_some_iff.mp found
  have same := ordered_perm g g.ranks order
  have bound' := bound
  rw [same.length_eq] at bound'
  refine (same.get bound bound').trans (.of_eq ?_)
  simp [ofRanks_eq]

/-- There is a layer for each rank up to the last one. -/
theorem exists_last_layer (filled : g.nodes ≠ []) (order : List ι) :
    ∃ v ∈ g.nodes, (∀ w ∈ g.nodes, rankOf g.ranks w ≤ rankOf g.ranks v) ∧
      (ordered g g.ranks order).length = rankOf g.ranks v + 1 := by
  obtain ⟨v, node, last⟩ := exists_last_rank filled
  rw [← rankOf_of_mem node] at last
  refine ⟨v, node, fun w _ => ?_, (length_ordered g g.ranks order).trans last⟩
  have below := rankOf_lt_count g.ranks w
  omega

/-- The layers of a layout hold, rank by rank, the nodes of that rank. Of the orders that four
sweeps reach, beginning with the given one, the first of those with the fewest crossings is taken;
so there are not more crossings than in the given order, and this is kept if it has none. -/
theorem ordered_fewest_crossings (arcs : g.arcs.Nodup) (filled : g.nodes ≠ [])
    (distinct : order.Nodup) (all : ∀ v, v ∈ order ↔ v ∈ g.nodes) :
    ((∃ v ∈ g.nodes, (∀ w ∈ g.nodes, rankOf g.ranks w ≤ rankOf g.ranks v) ∧
        (ordered g g.ranks order).length = rankOf g.ranks v + 1) ∧
      ∀ (r : Nat) (layer : List ι), (ordered g g.ranks order)[r]? = some layer →
        layer.Nodup ∧ ∀ v, v ∈ layer ↔ v ∈ g.nodes ∧ rankOf g.ranks v = r) ∧
    (crossed g (ordered g g.ranks order)).card ≤ (crossed g (ofRanks g.ranks order)).card ∧
    (∃ k ≤ 4, ordered g g.ranks order = reached g (ofRanks g.ranks order) k ∧
      (∀ j ≤ 4, (crossed g (ordered g g.ranks order)).card ≤
        (crossed g (reached g (ofRanks g.ranks order) j)).card) ∧
      ∀ j < k, (crossed g (ordered g g.ranks order)).card <
        (crossed g (reached g (ofRanks g.ranks order) j)).card) ∧
    (crossed g (ofRanks g.ranks order) = ∅ →
      ordered g g.ranks order = ofRanks g.ranks order) := by
  obtain ⟨k, chosen, best⟩ := exists_ordered_eq g g.ranks order
  have once := (flatten_ofRanks_perm g.ranks order).nodup_iff.mpr distinct
  have counted (n : Nat) : (crossed g (reached g (ofRanks g.ranks order) n)).card =
      (reached g (ofRanks g.ranks order) n).crossings g :=
    (crossings_eq_card (nodup_reached once n) arcs).symm
  have fewest : ∀ j ≤ 4, (crossed g (ordered g g.ranks order)).card ≤
      (crossed g (reached g (ofRanks g.ranks order) j)).card := by
    intro j within
    rw [chosen, counted, counted]
    exact best.fewest j within
  have earliest : ∀ j < k, (crossed g (ordered g g.ranks order)).card <
      (crossed g (reached g (ofRanks g.ranks order) j)).card := by
    intro j before
    rw [chosen, counted, counted]
    exact best.earliest j before
  refine ⟨⟨exists_last_layer filled order, fun r layer found => ?_⟩, fewest 0 (Nat.zero_le _),
    ⟨k, best.within, chosen, fewest, earliest⟩, fun none => ?_⟩
  · have same := perm_of_layer g order found
    refine ⟨same.nodup_iff.mpr (distinct.filter _), fun v => ?_⟩
    rw [same.mem_iff, List.mem_filter, all, decide_eq_true_iff]
  · obtain rfl | later := Nat.eq_zero_or_pos k
    · exact chosen
    · have better := earliest 0 later
      rw [reached, none, Finset.card_empty] at better
      omega

/-- Two arcs that cross as they are given. -/
def twisted : Digraph String where
  nodes := ["ask", "order", "ship", "answer"]
  arcs := [("ask", "answer"), ("order", "ship")]

/-- One sweep takes the crossing out. -/
theorem ordered_fewest_crossings_twisted :
    twisted.arcs.Nodup ∧ twisted.nodes ≠ [] ∧ twisted.nodes.Nodup ∧
      (crossed twisted (ofRanks twisted.ranks twisted.nodes)).card = 1 ∧
      ordered twisted twisted.ranks twisted.nodes = [["ask", "order"], ["answer", "ship"]] ∧
      (crossed twisted (ordered twisted twisted.ranks twisted.nodes)).card ≤
        (crossed twisted (ofRanks twisted.ranks twisted.nodes)).card := by
  have arcs : twisted.arcs.Nodup := by decide
  have filled : twisted.nodes ≠ [] := by decide
  have distinct : twisted.nodes.Nodup := by decide
  refine ⟨arcs, filled, distinct, by decide, by decide, ?_⟩
  exact (ordered_fewest_crossings arcs filled distinct fun _ => Iff.rfl).2.1

end Digraph

end FlowDiagram.Layout
