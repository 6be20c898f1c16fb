import FlowDiagram.Layout.Digraph
import FlowDiagram.Proofs.Outcomes
import Mathlib.Data.Finset.Max
import Mathlib.Data.List.Basic
/-!
# Ranks rise along arcs

Here some order of the nodes rises along all arcs of a graph. Then no search meets a node of
its own path, so that no arc is given up (`acyclic_eq`).

Of the nodes that are left over, the lowest ones have no predecessor among them. Each round of
`peel` therefore strips some nodes, and it strips both ends of an arc one after the other
(`lookup_peel_lt`). A node that only begins paths moves at most as far as the node in front of
its nearest successor, so ranks rise along arcs as well (`rank_lt_rank`).
-/

namespace FlowDiagram.Layout

namespace Digraph

variable {ι β : Type} [DecidableEq ι] [LinearOrder β] {f : ι → β} {g : Digraph ι}
variable {u v : ι} {rest : List ι} {n k : Nat}

/-- Arcs lead from lower nodes to higher ones. -/
def Rising (f : ι → β) (arcs : List (ι × ι)) : Prop := ∀ a ∈ arcs, f a.1 < f a.2

theorem mem_successors : v ∈ g.successors u ↔ (u, v) ∈ g.arcs := by
  simp [successors]

theorem mem_predecessors : u ∈ g.predecessors v ↔ (u, v) ∈ g.arcs := by
  simp [predecessors]

/-! ## No cycles -/

/-- A search ends where its path rises to its last node. -/
theorem exists_explore_eq_ok (rising : Rising f g.arcs) (n : Nat) {path : List ι}
    (done : List ι) (u : ι) (below : ∀ p ∈ path, f p ≤ f u) :
    ∃ finished, g.explore n path done u = .ok finished := by
  induction n generalizing path done u with
  | zero => exact ⟨done, rfl⟩
  | succ n ih =>
      have each : ∀ v ∈ g.successors u, ∀ done : List ι, ∃ next,
          (if v ∈ path then .error (u, v)
            else if v ∈ done then .ok done
            else g.explore n (v :: path) done v) = Except.ok next := by
        intro v onward done
        have higher : f u < f v := rising (u, v) (mem_successors.mp onward)
        have away : v ∉ path := fun again => (below v again).not_gt higher
        rw [if_neg away]
        split
        · exact ⟨done, rfl⟩
        · refine ih done v (List.forall_mem_cons.mpr ⟨le_rfl, ?_⟩)
          intro p member
          exact (below p member).trans higher.le
      obtain ⟨finished, searched⟩ := exists_foldlM_eq_ok each done
      refine ⟨u :: finished, ?_⟩
      rw [explore, searched]
      rfl

theorem closingArc?_eq_none (rising : Rising f g.arcs) : g.closingArc? = none := by
  have each : ∀ u ∈ g.nodes, ∀ done : List ι, ∃ next,
      (if u ∈ done then .ok done else g.explore (g.nodes.length + 1) [u] done u) =
        Except.ok next := by
    intro u _ done
    split
    · exact ⟨done, rfl⟩
    · exact exists_explore_eq_ok rising _ done u fun p member =>
        (List.mem_singleton.mp member ▸ le_rfl)
  obtain ⟨finished, searched⟩ := exists_foldlM_eq_ok each []
  rw [closingArc?, searched]

/-- Nothing is given up of a graph in which arcs rise. -/
theorem acyclic_eq (rising : Rising f g.arcs) : g.acyclic = g := by
  rw [acyclic]
  cases g.arcs.length with
  | zero => rfl
  | succ n => rw [breakCycles, closingArc?_eq_none rising]

/-! ## Peeling -/

/-- The nodes that no other one of some nodes leads to. -/
def free (g : Digraph ι) (rest : List ι) : List ι :=
  rest.filter fun v => (g.predecessors v).all (· ∉ rest)

theorem mem_free : v ∈ g.free rest ↔ v ∈ rest ∧ ∀ u, (u, v) ∈ g.arcs → u ∉ rest := by
  simp [free, mem_predecessors]

theorem peel_succ (g : Digraph ι) (n k : Nat) (rest : List ι) :
    g.peel (n + 1) k rest =
      (g.free rest).map (·, k) ++ g.peel n (k + 1) (rest.filter (· ∉ g.free rest)) := rfl

theorem lookup_peel_of_mem (first : v ∈ g.free rest) :
    (g.peel (n + 1) k rest).lookup v = some k := by
  rw [peel_succ, List.lookup_append, List.lookup_graph (fun _ => k) first, Option.some_or]

theorem lookup_peel_of_not_mem (later : v ∉ g.free rest) :
    (g.peel (n + 1) k rest).lookup v =
      (g.peel n (k + 1) (rest.filter (· ∉ g.free rest))).lookup v := by
  have absent : ((g.free rest).map (·, k)).lookup v = none := by
    apply List.lookup_eq_none_iff.mpr
    intro entry member
    obtain ⟨w, first, rfl⟩ := List.mem_map.mp member
    exact bne_iff_ne.mpr fun same => later (same ▸ first)
  rw [peel_succ, List.lookup_append, absent, Option.none_or]

/-- Some node can always be stripped. -/
theorem exists_mem_free (rising : Rising f g.arcs) (more : rest ≠ []) : ∃ v, v ∈ g.free rest := by
  obtain ⟨w, some⟩ := List.exists_mem_of_ne_nil _ more
  obtain ⟨v, member, lowest⟩ :=
    rest.toFinset.exists_min_image f ⟨w, List.mem_toFinset.mpr some⟩
  refine ⟨v, mem_free.mpr ⟨List.mem_toFinset.mp member, ?_⟩⟩
  intro u arc before
  exact (lowest u (List.mem_toFinset.mpr before)).not_gt (rising (u, v) arc)

theorem length_filter_free_lt (rising : Rising f g.arcs) (more : rest ≠ []) :
    (rest.filter (· ∉ g.free rest)).length < rest.length := by
  obtain ⟨v, first⟩ := exists_mem_free rising more
  exact List.length_filter_lt_length_iff_exists.mpr ⟨v, (mem_free.mp first).1, by simpa using first⟩

/-- Every node gets a number, and none that was used before. -/
theorem exists_lookup_peel (rising : Rising f g.arcs) (room : rest.length ≤ n) (member : v ∈ rest) :
    ∃ d, (g.peel n k rest).lookup v = some d ∧ k ≤ d := by
  induction n generalizing k rest with
  | zero =>
      obtain rfl := List.length_eq_zero_iff.mp (Nat.le_zero.mp room)
      exact absurd member List.not_mem_nil
  | succ n ih =>
      by_cases first : v ∈ g.free rest
      · exact ⟨k, lookup_peel_of_mem first, Nat.le_refl k⟩
      · rw [lookup_peel_of_not_mem first]
        have fewer := length_filter_free_lt rising (List.ne_nil_of_mem member)
        obtain ⟨d, found, above⟩ := ih (k := k + 1)
          (Nat.le_of_lt_succ (Nat.lt_of_lt_of_le fewer room))
          (List.mem_filter.mpr ⟨member, by simpa using first⟩)
        exact ⟨d, found, Nat.le_of_succ_le above⟩

/-- The end of an arc is stripped after its beginning. -/
theorem lookup_peel_lt (rising : Rising f g.arcs) (room : rest.length ≤ n) (arc : (u, v) ∈ g.arcs)
    (hu : u ∈ rest) (hv : v ∈ rest) :
    ∃ d e, (g.peel n k rest).lookup u = some d ∧ (g.peel n k rest).lookup v = some e ∧ d < e := by
  induction n generalizing k rest with
  | zero => exact absurd hu (List.length_eq_zero_iff.mp (Nat.le_zero.mp room) ▸ List.not_mem_nil)
  | succ n ih =>
      have waits : v ∉ g.free rest := fun first => (mem_free.mp first).2 u arc hu
      have fewer := length_filter_free_lt rising (List.ne_nil_of_mem hu)
      have room' := Nat.le_of_lt_succ (Nat.lt_of_lt_of_le fewer room)
      have hv' : v ∈ rest.filter (· ∉ g.free rest) := List.mem_filter.mpr ⟨hv, by simpa using waits⟩
      rw [lookup_peel_of_not_mem waits]
      by_cases first : u ∈ g.free rest
      · obtain ⟨e, found, above⟩ := exists_lookup_peel (k := k + 1) rising room' hv'
        exact ⟨k, e, lookup_peel_of_mem first, found, above⟩
      · rw [lookup_peel_of_not_mem first]
        exact ih room' (List.mem_filter.mpr ⟨hu, by simpa using first⟩) hv'

/-! ## Ranks -/

/-- The depth of a node; unknown nodes count as outermost. -/
def depth (g : Digraph ι) (v : ι) : Nat := (g.depths.lookup v).getD 0

theorem depth_lt_depth (rising : Rising f g.arcs) (arc : (u, v) ∈ g.arcs) (hu : u ∈ g.nodes)
    (hv : v ∈ g.nodes) : g.depth u < g.depth v := by
  obtain ⟨d, e, found, found', less⟩ := lookup_peel_lt (k := 0) rising (Nat.le_refl _) arc hu hv
  rw [depth, depth, depths, found, found']
  exact less

/-- The rank of a node. -/
def rank (g : Digraph ι) (v : ι) : Nat :=
  if (g.predecessors v).isEmpty && !(g.successors v).isEmpty then
    least ((g.successors v).map g.depth) - 1
  else g.depth v

theorem ranks_eq (g : Digraph ι) : g.ranks = g.nodes.map fun v => (v, g.rank v) := by
  apply List.map_congr_left
  intro v _
  dsimp only
  rw [rank]
  split <;> rfl

theorem lookup_ranks (member : v ∈ g.nodes) : g.ranks.lookup v = some (g.rank v) := by
  rw [ranks_eq, List.lookup_graph g.rank member]

theorem least_le {n : Nat} {ns : List Nat} (member : n ∈ ns) : least ns ≤ n := by
  cases ns with
  | nil => exact absurd member List.not_mem_nil
  | cons m ns => exact (List.le_min?_iff List.min?_cons').mp (Nat.le_refl _) n member

theorem least_mem {ns : List Nat} (filled : ns ≠ []) : least ns ∈ ns := by
  cases ns with
  | nil => contradiction
  | cons n ns => exact List.min?_mem List.min?_cons'

/-- A node that some arc leads to stays at its depth. -/
theorem rank_of_arc (arc : (u, v) ∈ g.arcs) : g.rank v = g.depth v := by
  have entered : (g.predecessors v).isEmpty = false :=
    List.isEmpty_eq_false_iff.mpr (List.ne_nil_of_mem (mem_predecessors.mpr arc))
  rw [rank, entered]
  rfl

/-- Ranks rise along arcs. -/
theorem rank_lt_rank (rising : Rising f g.arcs) (arc : (u, v) ∈ g.arcs) (hu : u ∈ g.nodes)
    (hv : v ∈ g.nodes) : g.rank u < g.rank v := by
  have deeper := depth_lt_depth rising arc hu hv
  rw [rank_of_arc arc, rank]
  split
  · have nearest : least ((g.successors u).map g.depth) ≤ g.depth v :=
      least_le (List.mem_map_of_mem (mem_successors.mpr arc))
    omega
  · exact deeper

end Digraph

end FlowDiagram.Layout
