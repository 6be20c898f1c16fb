import FlowDiagram.Proofs.Layout.Cycles
import FlowDiagram.Proofs.Layout.Layers
import Mathlib.Order.Bounds.Defs
/-!
# Ranks are lengths of paths

Stripping a graph layer by layer counts paths: a node that is stripped in some round has a
predecessor that was stripped in the round before (`exists_predecessor_peel`). So the depth of a
node is the length of the longest path that ends at it (`isGreatest_depth`).

Ranks differ from depths at the nodes that only begin paths. Such a node moves next to its
nearest successor, which is entered and stays where it is. No rank is left empty by this, because
a path that ends at some depth has a node at every smaller one, and its second node still has a
predecessor right in front of it (`exists_rank_eq`).
-/

namespace FlowDiagram.Layout

namespace Digraph

section

variable {ι : Type}

/-- Some path of that many arcs ends at the node. -/
inductive PathTo (g : Digraph ι) : Nat → ι → Prop
  | here (v : ι) : PathTo g 0 v
  | step {n : Nat} {u v : ι} (before : PathTo g n u) (arc : g.Leads u v) : PathTo g (n + 1) v

/-- Some arc leads to the node. -/
def Entered (g : Digraph ι) (v : ι) : Prop := ∃ u, g.Leads u v

/-- Some arc leads away from the node. -/
def Exited (g : Digraph ι) (v : ι) : Prop := ∃ w, g.Leads v w

/-- The ranks of the nodes of a graph: lengths of longest paths, except that a node which only
begins paths stands right in front of its nearest successor. -/
structure Ranking (g : Digraph ι) (rank : ι → Nat) : Prop where
  entered : ∀ v ∈ g.nodes, g.Entered v → IsGreatest {n | g.PathTo n v} (rank v)
  source : ∀ v ∈ g.nodes, ¬g.Entered v → g.Exited v →
    IsLeast {r | ∃ w, g.Leads v w ∧ rank w = r} (rank v + 1)
  isolated : ∀ v ∈ g.nodes, ¬g.Entered v → ¬g.Exited v → rank v = 0
  rises : ∀ u v, g.Leads u v → rank u < rank v
  adjacent : ∀ v ∈ g.nodes, g.Entered v → ∃ u, g.Leads u v ∧ rank u + 1 = rank v
  filled : ∀ v ∈ g.nodes, ∀ r ≤ rank v, ∃ w ∈ g.nodes, rank w = r

end

variable {ι β : Type} [DecidableEq ι] [LinearOrder β] {f : ι → β} {g : Digraph ι}
variable {u v : ι} {rest : List ι} {n k d : Nat}

/-! ## Rounds of stripping -/

theorem mem_of_lookup_peel (found : (g.peel n k rest).lookup v = some d) :
    v ∈ rest ∧ k ≤ d := by
  induction n generalizing k rest with
  | zero => contradiction
  | succ n ih =>
      by_cases first : v ∈ g.free rest
      · rw [lookup_peel_of_mem first] at found
        exact ⟨(mem_free.mp first).1, (Option.some.inj found).le⟩
      · rw [lookup_peel_of_not_mem first] at found
        obtain ⟨member, later⟩ := ih found
        exact ⟨(List.mem_filter.mp member).1, Nat.le_of_succ_le later⟩

/-- What has the number of a round is stripped in it. -/
theorem mem_free_of_lookup_peel (found : (g.peel n k rest).lookup v = some k) :
    v ∈ g.free rest := by
  cases n with
  | zero => contradiction
  | succ n =>
      apply by_contra
      intro waits
      rw [lookup_peel_of_not_mem waits] at found
      have later := (mem_of_lookup_peel found).2
      omega

/-- What waits for a round has a predecessor that is stripped in the round before. -/
theorem exists_predecessor_peel (found : (g.peel n k rest).lookup v = some (d + 1))
    (later : k ≤ d) : ∃ u, g.Leads u v ∧ (g.peel n k rest).lookup u = some d := by
  induction n generalizing k rest with
  | zero => contradiction
  | succ n ih =>
      have waits : v ∉ g.free rest := by
        intro first
        rw [lookup_peel_of_mem first] at found
        cases found
        omega
      rw [lookup_peel_of_not_mem waits] at found
      by_cases next : k = d
      · -- The node is stripped in the next round, so this one strips all that kept it waiting.
        subst next
        obtain ⟨member, alone⟩ := mem_free.mp (mem_free_of_lookup_peel found)
        have listed := (List.mem_filter.mp member).1
        have held : ∃ u, (u, v) ∈ g.arcs ∧ u ∈ rest := by
          apply by_contra
          intro none
          exact waits (mem_free.mpr ⟨listed, fun u arc before => none ⟨u, arc, before⟩⟩)
        obtain ⟨u, arc, before⟩ := held
        have first : u ∈ g.free rest := by
          apply by_contra
          intro waits
          exact alone u arc (List.mem_filter.mpr ⟨before, decide_eq_true waits⟩)
        exact ⟨u, arc, lookup_peel_of_mem first⟩
      · obtain ⟨u, arc, found⟩ := ih found (by omega)
        have waits : u ∉ g.free rest := by
          have left := (List.mem_filter.mp (mem_of_lookup_peel found).1).2
          exact of_decide_eq_true left
        exact ⟨u, arc, (lookup_peel_of_not_mem waits).trans found⟩

/-! ## Depths -/

theorem depth_eq_zero (alone : ¬g.Entered v) : g.depth v = 0 := by
  rw [depth, depths]
  cases found : (g.peel g.nodes.length 0 g.nodes).lookup v with
  | none => rfl
  | some d =>
      have node := (mem_of_lookup_peel found).1
      have first : v ∈ g.free g.nodes := mem_free.mpr ⟨node, fun u arc => absurd ⟨u, arc⟩ alone⟩
      obtain ⟨m, length⟩ := Nat.exists_eq_succ_of_ne_zero (List.length_pos_of_mem node).ne'
      rw [length, lookup_peel_of_mem first] at found
      exact (Option.some.inj found).symm

theorem exists_predecessor_depth (deep : g.depth v = d + 1) : ∃ u, g.Leads u v ∧ g.depth u = d := by
  have found : g.depths.lookup v = some (d + 1) := by
    rw [depth] at deep
    cases found : g.depths.lookup v with
    | none =>
        rw [found] at deep
        contradiction
    | some e =>
        rw [found, Option.getD_some] at deep
        rw [deep]
  obtain ⟨u, arc, found⟩ := exists_predecessor_peel found (Nat.zero_le d)
  refine ⟨u, arc, ?_⟩
  rw [depth, depths, found]
  rfl

theorem pathTo_depth (deep : g.depth v = d) : g.PathTo d v := by
  induction d generalizing v with
  | zero => exact .here v
  | succ d ih =>
      obtain ⟨u, arc, deep⟩ := exists_predecessor_depth deep
      exact .step (ih deep) arc

theorem le_depth_of_pathTo (closed : g.Closed) (rising : Rising f g.arcs) (path : g.PathTo n v) :
    n ≤ g.depth v := by
  induction path with
  | here v => exact Nat.zero_le _
  | step before arc ih =>
      have deeper := depth_lt_depth rising arc (closed _ arc).1 (closed _ arc).2
      omega

/-- The depth of a node is the length of the longest path that ends at it. -/
theorem isGreatest_depth (closed : g.Closed) (rising : Rising f g.arcs) (v : ι) :
    IsGreatest {n | g.PathTo n v} (g.depth v) :=
  ⟨pathTo_depth rfl, fun _ path => le_depth_of_pathTo closed rising path⟩

/-! ## Ranks -/

theorem rank_of_isolated (alone : ¬g.Entered v) (last : ¬g.Exited v) : g.rank v = 0 := by
  have none : g.successors v = [] :=
    List.eq_nil_iff_forall_not_mem.mpr fun w member => last ⟨w, mem_successors.mp member⟩
  rw [rank, none, List.isEmpty_nil, Bool.not_true, Bool.and_false, if_neg Bool.false_ne_true]
  exact depth_eq_zero alone

/-- A node that only begins paths stands right in front of its nearest successor. -/
theorem isLeast_rank_of_source (closed : g.Closed) (rising : Rising f g.arcs)
    (alone : ¬g.Entered v) (left : g.Exited v) :
    IsLeast {r | ∃ w, g.Leads v w ∧ g.rank w = r} (g.rank v + 1) := by
  have none : g.predecessors v = [] :=
    List.eq_nil_iff_forall_not_mem.mpr fun u member => alone ⟨u, mem_predecessors.mp member⟩
  obtain ⟨w, arc⟩ := left
  have some : g.successors v ≠ [] := List.ne_nil_of_mem (mem_successors.mpr arc)
  have nearest : least ((g.successors v).map g.depth) ∈ (g.successors v).map g.depth :=
    least_mem (List.map_eq_nil_iff.not.mpr some)
  obtain ⟨s, member, same⟩ := List.mem_map.mp nearest
  have next := mem_successors.mp member
  have deep : 0 < g.depth s :=
    Nat.zero_lt_of_lt (depth_lt_depth rising next (closed _ next).1 (closed _ next).2)
  have here : g.rank v + 1 = least ((g.successors v).map g.depth) := by
    rw [rank, none, List.isEmpty_eq_false_iff.mpr some, List.isEmpty_nil, Bool.not_false,
      Bool.and_self, if_pos rfl]
    omega
  refine ⟨⟨s, next, ?_⟩, ?_⟩
  · rw [rank_of_arc next, here, same]
  · rintro _ ⟨w, arc, rfl⟩
    rw [here, rank_of_arc arc]
    exact least_le (List.mem_map_of_mem (mem_successors.mpr arc))

/-- A node that is entered has a predecessor in the rank in front of it: one with the depth in
front of it, and this moves only if it begins paths, up to a successor that is not behind. -/
theorem exists_adjacent (closed : g.Closed) (rising : Rising f g.arcs) (entered : g.Entered v) :
    ∃ u, g.Leads u v ∧ g.rank u + 1 = g.rank v := by
  obtain ⟨w, arc⟩ := entered
  have stays := rank_of_arc arc
  have deeper := depth_lt_depth rising arc (closed _ arc).1 (closed _ arc).2
  obtain ⟨d, deep⟩ := Nat.exists_eq_succ_of_ne_zero (Nat.zero_lt_of_lt deeper).ne'
  obtain ⟨u, before, shallow⟩ := exists_predecessor_depth deep
  refine ⟨u, before, ?_⟩
  by_cases inner : g.Entered u
  · obtain ⟨x, arc'⟩ := inner
    rw [rank_of_arc arc', stays, shallow, deep]
  · have bare := depth_eq_zero inner
    have near : g.rank u + 1 ≤ g.rank v :=
      (isLeast_rank_of_source closed rising inner ⟨v, before⟩).2 ⟨v, before, rfl⟩
    omega

/-- In front of a node that is entered no rank is empty. -/
theorem exists_rank_of_entered (closed : g.Closed) (rising : Rising f g.arcs)
    (entered : g.Entered v) {r : Nat} (below : r ≤ g.rank v) : ∃ w ∈ g.nodes, g.rank w = r := by
  obtain ⟨x, into⟩ := entered
  have stays := rank_of_arc into
  induction deep : g.depth v generalizing v x with
  | zero => exact ⟨v, (closed _ into).2, by omega⟩
  | succ d ih =>
      by_cases same : r = d + 1
      · exact ⟨v, (closed _ into).2, by omega⟩
      · obtain ⟨u, arc, shallow⟩ := exists_predecessor_depth deep
        by_cases inner : g.Entered u
        · obtain ⟨y, arc'⟩ := inner
          have stays' := rank_of_arc arc'
          exact ih (by omega) y arc' stays' shallow
        · have bare := depth_eq_zero inner
          have near : g.rank u + 1 ≤ g.rank v :=
            (isLeast_rank_of_source closed rising inner ⟨v, arc⟩).2 ⟨v, arc, rfl⟩
          exact ⟨u, (closed _ arc).1, by omega⟩

/-- No rank is left empty. -/
theorem exists_rank_eq (closed : g.Closed) (rising : Rising f g.arcs) (node : v ∈ g.nodes)
    {r : Nat} (below : r ≤ g.rank v) : ∃ w ∈ g.nodes, g.rank w = r := by
  by_cases entered : g.Entered v
  · exact exists_rank_of_entered closed rising entered below
  by_cases left : g.Exited v
  · obtain ⟨w, arc⟩ := left
    have further := rank_lt_rank rising arc node (closed _ arc).2
    exact exists_rank_of_entered closed rising ⟨v, arc⟩ (below.trans further.le)
  · have bottom := rank_of_isolated entered left
    exact ⟨v, node, by omega⟩

theorem ranking_rank (closed : g.Closed) (rising : Rising f g.arcs) : g.Ranking g.rank where
  entered v _ entered := by
    obtain ⟨u, arc⟩ := entered
    rw [rank_of_arc arc]
    exact isGreatest_depth closed rising v
  source v _ := isLeast_rank_of_source closed rising
  isolated v _ := rank_of_isolated
  rises u v arc := rank_lt_rank rising arc (closed _ arc).1 (closed _ arc).2
  adjacent v _ := exists_adjacent closed rising
  filled v node r := exists_rank_eq closed rising node

theorem rankOf_of_mem (node : v ∈ g.nodes) : Layers.rankOf g.ranks v = g.rank v := by
  rw [Layers.rankOf, lookup_ranks node, Option.getD_some]

/-- The list of ranks holds the rank of every node, and nothing else has one. -/
theorem rankOf_ranks (closed : g.Closed) : Layers.rankOf g.ranks = g.rank := by
  funext v
  by_cases node : v ∈ g.nodes
  · exact rankOf_of_mem node
  · have unknown : g.ranks.lookup v = none := by
      apply List.lookup_eq_none_iff.mpr
      intro entry member
      rw [ranks_eq] at member
      obtain ⟨w, listed, rfl⟩ := List.mem_map.mp member
      exact bne_iff_ne.mpr fun same => node (same ▸ listed)
    have alone : ¬g.Entered v := fun ⟨_, arc⟩ => node (closed _ arc).2
    have last : ¬g.Exited v := fun ⟨_, arc⟩ => node (closed _ arc).1
    rw [Layers.rankOf, unknown, rank_of_isolated alone last]
    rfl

/-! ## Layers -/

/-- There is a layer for each rank up to the last one. -/
theorem exists_last_rank (some : g.nodes ≠ []) :
    ∃ v ∈ g.nodes, Layers.count g.ranks = g.rank v + 1 := by
  obtain ⟨first, rest, split⟩ := List.exists_cons_of_ne_nil some
  have numbers : g.ranks.map Prod.snd = g.rank first :: rest.map g.rank := by
    rw [ranks_eq, split, List.map_map, List.map_cons]
    rfl
  have greatest : (rest.map g.rank).foldl max (g.rank first) ∈ g.nodes.map g.rank := by
    rw [split, List.map_cons]
    exact List.max?_mem List.max?_cons'
  obtain ⟨v, node, last⟩ := List.mem_map.mp greatest
  refine ⟨v, node, ?_⟩
  rw [Layers.count, numbers, List.foldl_cons, Nat.zero_max, last]

/-- Where no rank is empty, no layer is. -/
theorem layer_ne_nil (closed : g.Closed) (rising : Rising f g.arcs) (some : g.nodes ≠ [])
    {order : List ι} (all : g.nodes ⊆ order) {layer : List ι}
    (member : layer ∈ Layers.ofRanks g.ranks order) : layer ≠ [] := by
  rw [Layers.ofRanks_eq, rankOf_ranks closed] at member
  obtain ⟨r, below, rfl⟩ := List.mem_map.mp member
  obtain ⟨v, node, last⟩ := exists_last_rank some
  have within := List.mem_range.mp below
  obtain ⟨w, node', same⟩ := exists_rank_eq closed rising node (r := r) (by omega)
  apply List.ne_nil_of_mem
  exact List.mem_filter.mpr ⟨all node', decide_eq_true same⟩

/-- The ranks of a graph without cycles are those that longest paths and nearest successors give,
so they rise along all arcs and leave out no number. No layer of its nodes is empty. -/
theorem ranks_ranking (closed : g.Closed) (acyclic : g.Acyclic) :
    g.ranks.map Prod.fst = g.nodes ∧ g.Ranking (Layers.rankOf g.ranks) ∧
      (g.nodes ≠ [] → ∀ order : List ι, (∀ v, v ∈ order ↔ v ∈ g.nodes) →
        ∀ layer ∈ Layers.ofRanks g.ranks order, layer ≠ []) := by
  obtain ⟨height, rising⟩ := acyclic.exists_rising
  refine ⟨?_, ?_, ?_⟩
  · rw [ranks_eq, List.map_map]
    exact List.map_id' _
  · rw [rankOf_ranks closed]
    exact ranking_rank closed rising
  · intro some order all layer
    exact layer_ne_nil closed rising some fun v node => (all v).mpr node

/-- A long path, a short one into its end, and a node apart. -/
def delivery : Digraph String where
  nodes := ["order", "pay", "pack", "send", "note"]
  arcs := [("order", "pack"), ("pack", "send"), ("pay", "send")]

/-- What only begins the short path stands right in front of its end. -/
theorem ranks_ranking_delivery :
    delivery.Closed ∧ delivery.Acyclic ∧ delivery.nodes ≠ [] ∧
      delivery.ranks = [("order", 0), ("pay", 1), ("pack", 1), ("send", 2), ("note", 0)] ∧
      delivery.Ranking (Layers.rankOf delivery.ranks) := by
  have closed : delivery.Closed := by
    rw [Closed]
    decide
  have rising : Rising delivery.nodes.idxOf delivery.arcs := by
    rw [Rising]
    decide
  have acyclic := acyclic_of_rising rising
  exact ⟨closed, acyclic, by decide, by decide, (ranks_ranking closed acyclic).2.1⟩

end Digraph

end FlowDiagram.Layout
