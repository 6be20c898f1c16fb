import FlowDiagram.Graph.Basic
import FlowDiagram.Proofs.Layout.Complete
/-!
# Loops of parents are cut once

Whoever has a chain of parents keeps its parent, whatever is given up elsewhere
(`lookup_cut_of_chain`). The first node of a loop that is looked at loses its parent, and from
then on all other nodes of the loop have chains that end there. So each loop loses one parent and
no more (`cut_of_cycle`), also where other chains run into it and are cut before.

What is kept has no loops, so the nodes form a forest. Its boxes are grown deep enough to hold all
children of a node at every depth (`whole_grow`), and walking through them meets each node once
(`parents_repaired`).
-/

namespace FlowDiagram.Layout

open Relation

variable {ι : Type} [DecidableEq ι]

namespace Parents

variable {parents : Parents ι} {items : List (Item ι)} {id x y z p q : ι}

/-- A node has a given parent. -/
def Up (parents : Parents ι) (x p : ι) : Prop := parents.lookup x = some p

theorem Up.unique (up : parents.Up x p) (up' : parents.Up x q) : p = q :=
  Option.some.inj (up.symm.trans up')

/-! ## Chains and loops -/

/-- From every node of a loop a path leads back to where it began. -/
theorem path_back (cycle : TransGen parents.Up x x) (path : ReflTransGen parents.Up x y) :
    ReflTransGen parents.Up y x := by
  induction path with
  | refl => exact .refl
  | tail before up ih =>
      obtain rfl | ⟨w, up', back⟩ := ih.cases_head
      · obtain ⟨w, up', back⟩ := TransGen.head'_iff.mp cycle
        rwa [up.unique up']
      · rwa [up.unique up']

theorem within_of_path (path : ReflTransGen parents.Up x p) : Within parents p x := by
  induction path using ReflTransGen.head_induction_on with
  | refl => exact .self
  | head up above ih => exact .step up ih

/-- Parents that all end are on no loop. -/
theorem Grounded.acyclic (grounded : Grounded parents) : ¬TransGen parents.Up x x := by
  intro cycle
  obtain ⟨p, up, back⟩ := TransGen.head'_iff.mp cycle
  exact grounded.not_within_parent up (within_of_path back)

/-- A node whose parents run into no loop has a chain. -/
theorem exists_chain_of_acyclic
    (acyclic : ∀ y, ReflTransGen parents.Up x y → ¬TransGen parents.Up y y) :
    ∃ chain, Chain parents x chain := by
  -- Above the node a parent is lower than its child in some height, by which the chain ends.
  let Below (p c : ι) : Prop := ReflTransGen parents.Up x c ∧ parents.Up c p
  have known : ∀ p c, Below p c → p ∈ parents.map (·.2) := fun p c below =>
    List.mem_map_of_mem (mem_of_lookup below.2)
  have upward : ∀ p c, TransGen Below p c → TransGen parents.Up c p := by
    intro p c path
    induction path with
    | single below => exact .single below.2
    | tail before below ih => exact .head below.2 ih
  obtain ⟨height, rises⟩ := exists_height known fun p cycle => by
    obtain ⟨c, -, below⟩ := TransGen.tail'_iff.mp cycle
    exact acyclic p below.1 (upward p p cycle)
  suffices chains : ∀ n y, height y = n → ReflTransGen parents.Up x y →
      ∃ chain, Chain parents y chain from chains _ x rfl .refl
  intro n
  induction n using Nat.strongRecOn with
  | ind n ih =>
      intro y here path
      cases up : parents.lookup y with
      | none => exact ⟨[y], .top up⟩
      | some p =>
          have lower := rises p y ⟨path, up⟩
          obtain ⟨chain, above⟩ := ih (height p) (here ▸ lower) p rfl (path.tail up)
          exact ⟨y :: chain, .step up above⟩

/-! ## Cuts -/

/-- A node with a chain keeps its parent. -/
theorem lookup_cut_of_chain (ids : List ι) (own : ∃ chain, Chain parents x chain) :
    (cut ids parents).lookup x = parents.lookup x := by
  induction ids generalizing parents with
  | nil => rfl
  | cons id rest ih =>
      rw [cut_cons]
      split
      · next loops =>
          have other : x ≠ id := by
            rintro rfl
            rw [loops_eq_false_iff.mpr own] at loops
            contradiction
          obtain ⟨chain, own⟩ := own
          rw [ih (own.forget id), lookup_forget, if_neg other]
      · exact ih own

/-- Once a node has lost its parent, all chains that lead to it end there. -/
theorem exists_chain_forget (path : ReflTransGen parents.Up x id) :
    ∃ chain, Chain (parents.forget id) x chain := by
  have ends : Chain (parents.forget id) id [id] := .top (by rw [lookup_forget, if_pos rfl])
  induction path using ReflTransGen.head_induction_on with
  | refl => exact ⟨_, ends⟩
  | @head x p up above ih =>
      by_cases here : x = id
      · rw [here]
        exact ⟨_, ends⟩
      · obtain ⟨chain, own⟩ := ih
        exact ⟨x :: chain, .step (by rw [lookup_forget, if_neg here, up]) own⟩

theorem up_forget_iff (other : x ≠ id) : (parents.forget id).Up x p ↔ parents.Up x p := by
  rw [Up, Up, lookup_forget, if_neg other]

/-- A path that does not meet a node stays when this loses its parent. -/
theorem path_forget (away : ¬ReflTransGen parents.Up x id)
    (path : ReflTransGen parents.Up x y) : ReflTransGen (parents.forget id).Up x y := by
  induction path with
  | refl => exact .refl
  | tail before up ih =>
      have other : ∀ {w}, ReflTransGen parents.Up x w → w ≠ id := fun reached same =>
        away (same ▸ reached)
      exact ih.tail ((up_forget_iff (other before)).mpr up)

theorem path_of_forget (path : ReflTransGen (parents.forget id).Up x y) :
    ReflTransGen parents.Up x y := by
  have fewer : ∀ w p, (parents.forget id).Up w p → parents.Up w p := by
    intro w p up
    rw [Up, lookup_forget] at up
    split at up
    · contradiction
    · exact up
  exact ReflTransGen.mono fewer x y path

/-- The nodes of a loop keep their parents, all of them or all but one. -/
theorem cut_of_cycle (ids : List ι) (cycle : TransGen parents.Up x x) :
    (∀ y, ReflTransGen parents.Up x y → (cut ids parents).lookup y = parents.lookup y) ∨
      ∃ y, ReflTransGen parents.Up x y ∧ (cut ids parents).lookup y = none ∧
        ∀ z, ReflTransGen parents.Up x z → z ≠ y →
          (cut ids parents).lookup z = parents.lookup z := by
  induction ids generalizing parents with
  | nil => exact .inl fun _ _ => rfl
  | cons id rest ih =>
      rw [cut_cons]
      split
      · by_cases on : ReflTransGen parents.Up x id
        · -- The loop is cut here, and all its nodes have chains from now on.
          have settled : ∀ z, ReflTransGen parents.Up x z →
              (cut rest (parents.forget id)).lookup z = (parents.forget id).lookup z := by
            intro z path
            apply lookup_cut_of_chain
            exact exists_chain_forget ((path_back cycle path).trans on)
          refine .inr ⟨id, on, ?_, fun z path other => ?_⟩
          · rw [settled id on, lookup_forget, if_pos rfl]
          · rw [settled z path, lookup_forget, if_neg other]
        · have other : ∀ {w}, ReflTransGen parents.Up x w → w ≠ id := fun reached same =>
            on (same ▸ reached)
          have same : ∀ {w}, ReflTransGen parents.Up x w →
              (parents.forget id).lookup w = parents.lookup w := fun reached => by
            rw [lookup_forget, if_neg (other reached)]
          obtain ⟨w, path, up⟩ := TransGen.tail'_iff.mp cycle
          have cycle' := TransGen.tail' (path_forget on path)
            ((up_forget_iff (other path)).mpr up)
          obtain whole | ⟨y, path, lost, others⟩ := ih cycle'
          · exact .inl fun y path => (whole y (path_forget on path)).trans (same path)
          · refine .inr ⟨y, path_of_forget path, lost, fun z path different => ?_⟩
            exact (others z (path_forget on path) different).trans (same path)
      · exact ih cycle

/-- On every loop of parents that the nodes name, exactly one parent is given up. -/
theorem existsUnique_lost (cycle : TransGen (declared items).Up x x) :
    ∃! y, ReflTransGen (declared items).Up x y ∧ ∀ p, ¬(kept items).Up y p := by
  rw [kept_eq]
  obtain whole | ⟨y, path, lost, others⟩ := cut_of_cycle ((declared items).map (·.1)) cycle
  · -- With all its parents the loop would be left.
    have stays : ∀ y, ReflTransGen (declared items).Up x y →
        ReflTransGen (kept items).Up x y := by
      intro y path
      induction path with
      | refl => exact .refl
      | tail before up ih => exact ih.tail ((whole _ before).trans up)
    obtain ⟨w, path, up⟩ := TransGen.tail'_iff.mp cycle
    exact absurd (TransGen.tail' (stays w path) ((whole w path).trans up))
      (grounded_kept items).acyclic
  · refine ⟨y, ⟨path, fun p up => ?_⟩, fun z ⟨path', lost'⟩ => ?_⟩
    · rw [Up, lost] at up
      contradiction
    · apply by_contra
      intro different
      have around : TransGen (declared items).Up z x :=
        TransGen.trans_right (path_back cycle path') cycle
      obtain ⟨p, up, -⟩ := TransGen.head'_iff.mp around
      exact lost' p ((others z path' different).trans up)

end Parents

/-! ## Boxes -/

namespace Box

open Parents

variable {items : List (Item ι)} {id : ι}

/-- A box holds those of the children of its node and no others, and so do the boxes in it. -/
inductive Whole (kids : ι → List ι) : Box ι → Prop
  | mk {id : ι} {inner : List (Box ι)} (own : inner.map Box.id = kids id)
      (each : ∀ b ∈ inner, Whole kids b) : Whole kids (.mk id inner)

theorem id_grow (items : List (Item ι)) (parents : Parents ι) (n : Nat) (id : ι) :
    (grow items parents n id).id = id := by
  cases n <;> rfl

/-- A box is grown deep enough: the deeper a node lies, the longer is its chain, and no chain is
longer than the list of nodes. -/
theorem whole_grow (distinct : (items.map (·.id)).Nodup) (n : Nat) {chain : List ι}
    (own : Chain (kept items) id chain) (known : id ∈ items.map (·.id))
    (room : items.length < chain.length + n) :
    (grow items (kept items) n id).Whole fun p => childrenOf items (kept items) (some p) := by
  induction n generalizing id chain with
  | zero => exact absurd (length_chain_kept_le distinct own known) (Nat.not_le.mpr room)
  | succ n ih =>
      rw [grow]
      refine .mk ?_ fun b member => ?_
      · rw [List.map_map]
        exact List.map_id'' (id_grow items (kept items) n) _
      · obtain ⟨child, listed, rfl⟩ := List.mem_map.mp member
        obtain ⟨known, up⟩ := mem_childrenOf.mp listed
        apply ih (.step up own) known
        rw [List.length_cons]
        omega

theorem ids_forest (items : List (Item ι)) (parents : Parents ι) :
    (forest items parents).map Box.id = childrenOf items parents none := by
  rw [forest, List.map_map]
  exact List.map_id'' (id_grow items parents items.length) _

theorem whole_forest (distinct : (items.map (·.id)).Nodup) {b : Box ι}
    (member : b ∈ forest items (kept items)) :
    b.Whole fun p => childrenOf items (kept items) (some p) := by
  obtain ⟨root, listed, rfl⟩ := List.mem_map.mp member
  obtain ⟨known, free⟩ := mem_childrenOf.mp listed
  apply whole_grow distinct _ (.top free) known
  rw [List.length_singleton]
  omega

/-- Every node of the list is in one box. -/
theorem nodes_forest_perm (distinct : (items.map (·.id)).Nodup) :
    (nodesOfAll (forest items (kept items))).Perm (items.map (·.id)) := by
  rw [← ids_spots_eq Settings.customaryDistances items []]
  exact spots_perm _ _ distinct

end Box

end FlowDiagram.Layout

namespace FlowDiagram.Graph

open Layout Parents Relation

/-- A node of a graph names another node of it as its parent. The empty name is none. -/
def Names (g : Graph) (x p : String) : Prop :=
  ∃ node ∈ g.nodes, node.id = x ∧ node.parent = some p ∧ p ≠ "" ∧ p ∈ g.ids ∧ p ≠ x

theorem usable?_eq_some_iff {g : Graph} {node : Node} {p : String} :
    usable? g.ids node.item = some p ↔
      node.parent = some p ∧ p ≠ "" ∧ p ∈ g.ids ∧ p ≠ node.id := by
  simp only [usable?, Node.item, Node.parent?, Option.filter_eq_some_iff, Bool.not_eq_true',
    ← Bool.not_eq_true, String.isEmpty_iff, and_assoc]
  exact and_congr_right fun _ => and_congr_right fun _ => decide_eq_true_iff

/-- The parents that count are those that nodes name. -/
theorem up_declared {g : Graph} (distinct : g.ids.Nodup) : (declared g.items).Up = g.Names := by
  rw [← ids_items] at distinct
  have of_node : ∀ node ∈ g.nodes, ∀ p, (declared g.items).Up node.id p ↔
      node.parent = some p ∧ p ≠ "" ∧ p ∈ g.ids ∧ p ≠ node.id := by
    intro node member p
    have item : node.item ∈ g.items := List.mem_map_of_mem member
    rw [← usable?_eq_some_iff, ← ids_items, ← lookup_declared distinct item]
    rfl
  funext x p
  apply propext
  constructor
  · intro up
    obtain ⟨item, listed, rfl⟩ := List.mem_map.mp (mem_of_lookup_declared distinct up).1
    obtain ⟨node, member, rfl⟩ := List.mem_map.mp listed
    exact ⟨node, member, rfl, (of_node node member p).mp up⟩
  · rintro ⟨node, member, rfl, names⟩
    exact (of_node node member p).mpr names

/-- The parents that a layout keeps have no loops. Only parents that nodes name are kept: all of
them where no loop is above, and all but one on each loop. So the nodes form a forest, in which
those with the same parent stand in the order of the list, and a layout walks through it and meets
each node once. -/
theorem parents_repaired (g : Graph) (distinct : g.ids.Nodup) :
    ((∀ x, ¬TransGen (kept g.items).Up x x) ∧
      (∀ x p, (kept g.items).Up x p → g.Names x p) ∧
      (∀ x p, g.Names x p → (∀ y, ReflTransGen g.Names x y → ¬TransGen g.Names y y) →
        (kept g.items).Up x p) ∧
      ∀ x, TransGen g.Names x x →
        ∃! y, ReflTransGen g.Names x y ∧ ∀ p, ¬(kept g.items).Up y p) ∧
    (Box.forest g.items (kept g.items)).map Box.id =
      g.ids.filter (fun x => (kept g.items).lookup x = none) ∧
    (∀ b ∈ Box.forest g.items (kept g.items),
      b.Whole fun p => g.ids.filter fun x => (kept g.items).lookup x = some p) ∧
    (nodesOfAll (Box.forest g.items (kept g.items))).Perm g.ids ∧
    ∀ (α : Type) [Coordinate α] (s : Spacing α),
      (spots s g.items g.arcs).map Spot.id = nodesOfAll (Box.forest g.items (kept g.items)) := by
  have named := up_declared distinct
  rw [← ids_items] at distinct ⊢
  refine ⟨⟨fun x => (grounded_kept g.items).acyclic, fun x p up => ?_, fun x p up acyclic => ?_,
    fun x cycle => ?_⟩, Box.ids_forest _ _, fun b => Box.whole_forest distinct,
    Box.nodes_forest_perm distinct, fun α _ s => ids_spots_eq s g.items g.arcs⟩
  · rw [← named]
    exact lookup_kept up
  · rw [← named] at up acyclic
    have keeps := lookup_cut_of_chain ((declared g.items).map (·.1))
      (exists_chain_of_acyclic acyclic)
    exact keeps.trans up
  · rw [← named] at cycle ⊢
    exact existsUnique_lost cycle

/-- A loop of two nodes with one that runs into it, a node that names itself, one that names
nothing, and a node in another. -/
def looped : Graph where
  nodes := [
    { id := "tail", parent := some "left", label := "" },
    { id := "left", parent := some "right", label := "" },
    { id := "right", parent := some "left", label := "" },
    { id := "self", parent := some "self", label := "" },
    { id := "blank", parent := some "", label := "" },
    { id := "room", isGroup := true, label := "" },
    { id := "desk", parent := some "room", label := "" }]

/-- The loop is cut at its first node, and the chain that runs into it was cut before. -/
theorem parents_repaired_looped :
    looped.ids.Nodup ∧ kept looped.items = [("right", "left"), ("desk", "room")] ∧
      TransGen looped.Names "left" "left" ∧
      ∃! y, ReflTransGen looped.Names "left" y ∧ ∀ p, ¬(kept looped.items).Up y p := by
  have distinct : looped.ids.Nodup := by decide
  have up : looped.Names "left" "right" :=
    ⟨_, List.mem_of_getElem? (i := 1) rfl, rfl, rfl, by decide, by decide, by decide⟩
  have down : looped.Names "right" "left" :=
    ⟨_, List.mem_of_getElem? (i := 2) rfl, rfl, rfl, by decide, by decide, by decide⟩
  have cycle : TransGen looped.Names "left" "left" := .tail (.single up) down
  exact ⟨distinct, by decide, cycle, (parents_repaired looped distinct).1.2.2.2 "left" cycle⟩

end FlowDiagram.Graph
