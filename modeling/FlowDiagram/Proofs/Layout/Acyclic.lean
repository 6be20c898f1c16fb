import FlowDiagram.Proofs.Layout.Ranks
import Mathlib.Data.List.Nodup
import Mathlib.Logic.Relation
/-!
# Cycles are broken

A search that meets no closing arc finishes nodes one after the other, each of them after all
nodes that its arcs lead to (`Finished`). So if the search of a whole graph meets none, some
order of the nodes rises along all arcs (`exists_rising_of_closingArc?`). The bound of the
search is never felt: the nodes on a path are distinct nodes of the graph.

The search stops on the last arc of a cycle (`closes_of_closingArc?`). It is an arc of the graph,
so that giving it up leaves fewer. As many rounds as there are arcs are therefore enough, and no
closing arc is left in the end (`closingArc?_acyclic`).
-/

namespace FlowDiagram.Layout

open Relation

namespace Digraph

variable {ι : Type} [DecidableEq ι] {g : Digraph ι} {u v : ι} {done next path : List ι}

/-- Arcs lead from nodes to nodes. -/
def Closed (g : Digraph ι) : Prop := ∀ a ∈ g.arcs, a.1 ∈ g.nodes ∧ a.2 ∈ g.nodes

/-- An arc leads from one node to another. -/
def Leads (g : Digraph ι) (u v : ι) : Prop := (u, v) ∈ g.arcs

/-! ## Closing arcs -/

/-- An arc is the last one of a cycle: a path leads from its end back to its beginning. -/
structure Closes (g : Digraph ι) (a : ι × ι) : Prop where
  listed : a ∈ g.arcs
  back : ReflTransGen g.Leads a.2 a.1

/-- An arc on which a search stops leads back to a node of the path. -/
theorem closes_of_explore (n : Nat) {a : ι × ι} (reach : ∀ p ∈ path, ReflTransGen g.Leads p u)
    (stopped : g.explore n path done u = .error a) : g.Closes a := by
  induction n generalizing path done u with
  | zero => contradiction
  | succ n ih =>
      rw [explore] at stopped
      cases searched : (g.successors u).foldlM (fun done v =>
          if v ∈ path then .error (u, v)
          else if v ∈ done then .ok done
          else g.explore n (v :: path) done v) done with
      | ok finished =>
          rw [searched] at stopped
          contradiction
      | error a' =>
          rw [searched] at stopped
          cases stopped
          obtain ⟨v, onward, state, found⟩ := exists_of_foldlM_eq_error searched
          have leads : g.Leads u v := mem_successors.mp onward
          split at found
          · next again =>
              cases found
              exact ⟨leads, reach v again⟩
          split at found
          · contradiction
          · apply ih _ found
            exact List.forall_mem_cons.mpr ⟨.refl, fun p member => (reach p member).tail leads⟩

/-- The arc that a search finds closes a cycle. -/
theorem closes_of_closingArc? {a : ι × ι} (closing : g.closingArc? = some a) : g.Closes a := by
  rw [closingArc?] at closing
  split at closing
  · next stopped =>
      cases closing
      obtain ⟨u, -, state, found⟩ := exists_of_foldlM_eq_error stopped
      split at found
      · contradiction
      · apply closes_of_explore _ _ found
        exact List.forall_mem_singleton.mpr .refl
  · contradiction

/-- As many rounds as there are arcs leave no closing arc. -/
theorem closingArc?_breakCycles (n : Nat) {g : Digraph ι} (room : g.arcs.length ≤ n) :
    (breakCycles n g).closingArc? = none := by
  induction n generalizing g with
  | zero =>
      rw [breakCycles]
      have bare : g.arcs = [] := List.length_eq_zero_iff.mp (Nat.le_zero.mp room)
      cases closing : g.closingArc? with
      | none => rfl
      | some a => exact absurd (bare ▸ (closes_of_closingArc? closing).listed) List.not_mem_nil
  | succ n ih =>
      rw [breakCycles]
      split
      · next closed => exact closed
      · next a closing =>
          apply ih
          have listed := (closes_of_closingArc? closing).listed
          have some := List.length_pos_of_mem listed
          rw [erase, List.length_erase_of_mem listed]
          omega

theorem closingArc?_acyclic (g : Digraph ι) : g.acyclic.closingArc? = none :=
  closingArc?_breakCycles _ (Nat.le_refl _)

/-- Breaking cycles only gives up arcs. -/
theorem breakCycles_sublist (n : Nat) (g : Digraph ι) :
    (breakCycles n g).nodes = g.nodes ∧ (breakCycles n g).arcs.Sublist g.arcs := by
  induction n generalizing g with
  | zero => exact ⟨rfl, .refl _⟩
  | succ n ih =>
      rw [breakCycles]
      split
      · exact ⟨rfl, .refl _⟩
      · next a closing =>
          obtain ⟨same, fewer⟩ := ih (g.erase a)
          exact ⟨same, fewer.trans (List.erase_sublist)⟩

@[simp] theorem nodes_acyclic (g : Digraph ι) : g.acyclic.nodes = g.nodes :=
  (breakCycles_sublist _ g).1

theorem arcs_acyclic_subset (g : Digraph ι) : g.acyclic.arcs ⊆ g.arcs :=
  (breakCycles_sublist _ g).2.subset

theorem Closed.acyclic (closed : g.Closed) : g.acyclic.Closed := by
  intro a listed
  rw [nodes_acyclic]
  exact closed a (g.arcs_acyclic_subset listed)

/-! ## Finished nodes -/

/-- Nodes in the order in which they were finished, the latest first. The arcs of a node lead
to nodes that were finished before it. -/
inductive Finished (g : Digraph ι) : List ι → Prop where
  | nil : Finished g []
  | cons {u : ι} {done : List ι} (known : ∀ v ∈ g.successors u, v ∈ done)
      (before : Finished g done) : Finished g (u :: done)

theorem Finished.mem_of_arc (finished : Finished g done) (hu : u ∈ done) (arc : (u, v) ∈ g.arcs) :
    v ∈ done := by
  induction finished with
  | nil => contradiction
  | cons known before ih =>
      obtain rfl | earlier := List.mem_cons.mp hu
      · exact List.mem_cons_of_mem _ (known v (mem_successors.mpr arc))
      · exact List.mem_cons_of_mem _ (ih earlier)

/-- The end of an arc was finished before its beginning. -/
theorem Finished.idxOf_lt (finished : Finished g done) (hu : u ∈ done) (arc : (u, v) ∈ g.arcs) :
    done.reverse.idxOf v < done.reverse.idxOf u := by
  induction finished with
  | nil => contradiction
  | @cons w done known before ih =>
      rw [List.reverse_cons]
      by_cases earlier : u ∈ done
      · have hv := before.mem_of_arc earlier arc
        rw [List.idxOf_append_of_mem (List.mem_reverse.mpr earlier),
          List.idxOf_append_of_mem (List.mem_reverse.mpr hv)]
        exact ih earlier
      · obtain rfl : u = w := (List.mem_cons.mp hu).resolve_right earlier
        have hv := known v (mem_successors.mpr arc)
        have place := List.idxOf_lt_length_of_mem (List.mem_reverse.mpr hv)
        have new : u ∉ done.reverse := fun again => earlier (List.mem_reverse.mp again)
        rw [List.idxOf_append_of_mem (List.mem_reverse.mpr hv), List.idxOf_append_of_notMem new]
        omega

/-- More nodes are finished, some given ones among them. -/
structure Finishes (g : Digraph ι) (done next targets : List ι) : Prop where
  finished : Finished g next
  kept : done ⊆ next
  reached : ∀ v ∈ targets, v ∈ next

/-- A fold whose steps finish nodes one by one finishes all of them. -/
theorem finishes_foldlM {ε : Type} {step : List ι → ι → Except ε (List ι)} {targets : List ι}
    (each : ∀ v ∈ targets, ∀ done next, Finished g done → step done v = .ok next →
      Finishes g done next [v])
    (before : Finished g done) (searched : targets.foldlM step done = .ok next) :
    Finishes g done next targets := by
  induction targets generalizing done with
  | nil =>
      cases searched
      exact ⟨before, List.Subset.refl _, fun v member => absurd member List.not_mem_nil⟩
  | cons v rest ih =>
      rw [List.foldlM_cons] at searched
      cases first : step done v with
      | error e =>
          rw [first] at searched
          contradiction
      | ok middle =>
          rw [first] at searched
          have one := each v List.mem_cons_self done middle before first
          have others := ih (fun w later => each w (List.mem_cons_of_mem _ later)) one.finished
            searched
          refine ⟨others.finished, List.Subset.trans one.kept others.kept, ?_⟩
          exact List.forall_mem_cons.mpr
            ⟨others.kept (one.reached v List.mem_cons_self), others.reached⟩

/-- A search that meets no closing arc finishes the node that it begins with. -/
theorem finishes_explore (closed : g.Closed) (n : Nat)
    (room : g.nodes.length + 2 ≤ n + path.length) (once : path.Nodup) (inside : path ⊆ g.nodes)
    (before : Finished g done) (searched : g.explore n path done u = .ok next) :
    Finishes g done next [u] := by
  induction n generalizing path done u next with
  | zero =>
      have short := (once.subperm inside).length_le
      omega
  | succ n ih =>
      rw [explore] at searched
      cases onward : (g.successors u).foldlM (fun done v =>
          if v ∈ path then .error (u, v)
          else if v ∈ done then .ok done
          else g.explore n (v :: path) done v) done with
      | error a =>
          rw [onward] at searched
          contradiction
      | ok middle =>
          rw [onward] at searched
          cases searched
          have all := finishes_foldlM (fun v arc done next before stepped => by
            split at stepped
            · contradiction
            · next away =>
                split at stepped
                · next known =>
                    cases stepped
                    exact ⟨before, List.Subset.refl _, List.forall_mem_singleton.mpr known⟩
                · have node := (closed _ (mem_successors.mp arc)).2
                  refine ih ?_ (List.nodup_cons.mpr ⟨away, once⟩)
                    (List.cons_subset.mpr ⟨node, inside⟩) before stepped
                  rw [List.length_cons]
                  omega) before onward
          refine ⟨.cons all.reached all.finished, ?_, ?_⟩
          · exact List.Subset.trans all.kept (List.subset_cons_self _ _)
          · exact List.forall_mem_singleton.mpr List.mem_cons_self

/-- Where no arc closes a cycle, all nodes can be finished. -/
theorem exists_finished (closed : g.Closed) (none : g.closingArc? = none) :
    ∃ done, Finished g done ∧ g.nodes ⊆ done := by
  rw [closingArc?] at none
  split at none
  · contradiction
  · next done searched =>
      have all := finishes_foldlM (g := g) (fun u node done next before stepped => by
        split at stepped
        · next known =>
            cases stepped
            exact ⟨before, List.Subset.refl _, List.forall_mem_singleton.mpr known⟩
        · exact finishes_explore closed _ (Nat.le_refl _) (List.nodup_singleton u)
            (List.cons_subset.mpr ⟨node, List.nil_subset _⟩) before stepped) .nil searched
      exact ⟨done, all.finished, all.reached⟩

/-- Where no arc closes a cycle, some order of the nodes rises along all arcs. -/
theorem exists_rising_of_closingArc? (closed : g.Closed) (none : g.closingArc? = none) :
    ∃ f : ι → ℕᵒᵈ, Rising f g.arcs := by
  obtain ⟨done, finished, all⟩ := exists_finished closed none
  refine ⟨fun v => OrderDual.toDual (done.reverse.idxOf v), ?_⟩
  rintro ⟨u, v⟩ arc
  exact finished.idxOf_lt (all (closed _ arc).1) arc

/-- Once its cycles are broken, some order of the nodes rises along all arcs of a graph. -/
theorem exists_rising_acyclic (closed : g.Closed) : ∃ f : ι → ℕᵒᵈ, Rising f g.acyclic.arcs :=
  exists_rising_of_closingArc? closed.acyclic g.closingArc?_acyclic

end Digraph

end FlowDiagram.Layout
