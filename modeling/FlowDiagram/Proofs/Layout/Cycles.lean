import FlowDiagram.Proofs.Layout.Acyclic
import FlowDiagram.Proofs.Layout.Lifting
import FlowDiagram.Proofs.Lists
/-!
# What is left when cycles are broken

An arc closes a cycle if a path leads from its end back to its beginning. The rest of the cycle
connects both ends, so that giving up the arc takes nothing apart (`linked_erase`). Therefore it
does not matter which closing arcs a search finds, nor in which order: whenever no cycle is left,
the graph has the same nodes, the same connected parts, and no arc that it did not have before
(`untangles_of_removals`).

The search of a layout finds a closing arc as long as there is a cycle (`closingArc?_eq_none_iff`,
`closes_of_closingArc?`), so what it leaves is one of these graphs.
-/

namespace FlowDiagram.Layout

open Relation

namespace Digraph

section

variable {ι : Type} {g g' : Digraph ι} {a b u v : ι}

/-- No path leads from a node back to it. -/
def Acyclic (g : Digraph ι) : Prop := ∀ v, ¬TransGen g.Leads v v

/-- Two nodes are connected by arcs, whichever way these lead. -/
def Linked (g : Digraph ι) : ι → ι → Prop := EqvGen g.Leads

/-- An arc begins or ends at a node. -/
def Touched (g : Digraph ι) (v : ι) : Prop := ∃ a ∈ g.arcs, a.1 = v ∨ a.2 = v

/-- Arcs lead between different nodes of the graph. -/
structure Simple (g : Digraph ι) : Prop where
  closed : g.Closed
  loopless : ∀ a ∈ g.arcs, a.1 ≠ a.2

/-- What is left of a graph when all its cycles are broken. -/
structure Untangles (g g' : Digraph ι) : Prop where
  acyclic : g'.Acyclic
  nodes : g'.nodes = g.nodes
  arcs : g'.arcs.Sublist g.arcs
  unchanged : g.Acyclic → g' = g
  linked : ∀ u v, g'.Linked u v ↔ g.Linked u v
  touched : ∀ v, g'.Touched v ↔ g.Touched v

/-! ## Cycles and heights -/

theorem acyclic_of_rising {β : Type} [LinearOrder β] {f : ι → β} (rising : Rising f g.arcs) :
    g.Acyclic := by
  intro v cycle
  have higher : ∀ w, TransGen g.Leads v w → f v < f w := by
    intro w path
    induction path with
    | single arc => exact rising _ arc
    | tail before arc ih => exact ih.trans (rising _ arc)
  exact (higher v cycle).false

theorem Acyclic.exists_rising (acyclic : g.Acyclic) : ∃ f : ι → Nat, Rising f g.arcs := by
  have known : ∀ u v, g.Leads u v → u ∈ g.arcs.map Prod.fst := fun _ _ arc =>
    List.mem_map_of_mem arc
  obtain ⟨height, rises⟩ := exists_height known acyclic
  exact ⟨height, fun arc listed => rises arc.1 arc.2 listed⟩

theorem Closes.not_acyclic {arc : ι × ι} (closes : g.Closes arc) : ¬g.Acyclic := by
  intro acyclic
  apply acyclic arc.1
  exact TransGen.head' closes.listed closes.back

/-- A cycle has a last arc. -/
theorem exists_closes (cyclic : ¬g.Acyclic) : ∃ arc, g.Closes arc := by
  rw [Acyclic, not_forall_not] at cyclic
  obtain ⟨v, cycle⟩ := cyclic
  obtain ⟨u, path, arc⟩ := TransGen.tail'_iff.mp cycle
  exact ⟨(u, v), arc, path⟩

/-! ## Connected parts -/

/-- Different nodes that are connected are touched by arcs. -/
theorem Linked.touched (linked : g.Linked u v) : u = v ∨ g.Touched u ∧ g.Touched v := by
  induction linked with
  | rel u v arc => exact .inr ⟨⟨_, arc, .inl rfl⟩, ⟨_, arc, .inr rfl⟩⟩
  | refl u => exact .inl rfl
  | symm u v linked ih => exact ih.imp Eq.symm And.symm
  | trans u v w first second ih ih' =>
      obtain rfl | ⟨hu, hv⟩ := ih
      · exact ih'
      · obtain rfl | ⟨-, hw⟩ := ih'
        · exact .inr ⟨hu, hv⟩
        · exact .inr ⟨hu, hw⟩

/-- Where parts stay connected, no node of a simple graph is left alone. -/
theorem touched_of_linked (loopless : ∀ a ∈ g.arcs, a.1 ≠ a.2)
    (linked : ∀ u v, g.Linked u v → g'.Linked u v) (touched : g.Touched v) : g'.Touched v := by
  obtain ⟨⟨a, b⟩, arc, ends⟩ := touched
  have both := (linked a b (.rel _ _ arc)).touched.resolve_left (loopless _ arc)
  obtain rfl | rfl := ends
  · exact both.1
  · exact both.2

theorem linked_of_sublist (fewer : g'.arcs.Sublist g.arcs) (linked : g'.Linked u v) :
    g.Linked u v := by
  have leads : ∀ u v, g'.Leads u v → g.Leads u v := fun _ _ arc => fewer.subset arc
  exact EqvGen.mono leads u v linked

variable [DecidableEq ι]

/-- What is reached from the end of an arc is connected to it without the arc: a path that takes
the arc is back at its end. -/
theorem linked_erase_of_path {arc : ι × ι} (path : ReflTransGen g.Leads arc.2 v) :
    (g.erase arc).Linked arc.2 v := by
  induction path with
  | refl => exact .refl _
  | @tail w x before next ih =>
      by_cases again : (w, x) = arc
      · rw [← again]
        exact .refl _
      · have left : (g.erase arc).Leads w x := (List.mem_erase_of_ne again).mpr next
        exact ih.trans _ _ _ (.rel _ _ left)

/-- Giving up an arc that closes a cycle takes nothing apart. -/
theorem linked_erase {arc : ι × ι} (closes : g.Closes arc) :
    (g.erase arc).Linked u v ↔ g.Linked u v := by
  refine ⟨linked_of_sublist List.erase_sublist, fun linked => ?_⟩
  induction linked with
  | rel u v leads =>
      by_cases same : (u, v) = arc
      · subst same
        exact (linked_erase_of_path closes.back).symm
      · exact .rel _ _ ((List.mem_erase_of_ne same).mpr leads)
  | refl u => exact .refl _
  | symm u v linked ih => exact ih.symm
  | trans u v w first second ih ih' => exact ih.trans _ _ _ ih'

end

section

variable {ι : Type} [DecidableEq ι] {g g' : Digraph ι} {u v : ι}

/-! ## Removals -/

/-- One round: an arc that closes a cycle is given up. -/
def Removes (g g' : Digraph ι) : Prop := ∃ arc, g.Closes arc ∧ g' = g.erase arc

theorem Removes.length (removes : g.Removes g') : g'.arcs.length + 1 = g.arcs.length := by
  obtain ⟨arc, closes, rfl⟩ := removes
  have some := List.length_pos_of_mem closes.listed
  show (g.arcs.erase arc).length + 1 = g.arcs.length
  rw [List.length_erase_of_mem closes.listed]
  omega

/-- Each round takes an arc, so there are not more rounds than arcs. -/
theorem length_le_of_removals {run : List (Digraph ι)} (rounds : (g :: run).IsChain Removes) :
    run.length ≤ g.arcs.length := by
  induction run generalizing g with
  | nil => exact Nat.zero_le _
  | cons next rest ih =>
      obtain ⟨removes, later⟩ := List.isChain_cons_cons.mp rounds
      have fewer := removes.length
      have short := ih later
      rw [List.length_cons]
      omega

/-- What any number of rounds keeps. -/
theorem sublist_of_removals (removals : ReflTransGen Removes g g') :
    g'.nodes = g.nodes ∧ g'.arcs.Sublist g.arcs ∧ ∀ u v, g'.Linked u v ↔ g.Linked u v := by
  induction removals with
  | refl => exact ⟨rfl, .refl _, fun _ _ => .rfl⟩
  | tail before removes ih =>
      obtain ⟨arc, closes, rfl⟩ := removes
      obtain ⟨nodes, arcs, linked⟩ := ih
      refine ⟨nodes, List.erase_sublist.trans arcs, fun u v => ?_⟩
      exact (linked_erase closes).trans (linked u v)

/-- Wherever the rounds end, the graph is untangled. -/
theorem untangles_of_removals (simple : g.Simple) (removals : ReflTransGen Removes g g')
    (acyclic : g'.Acyclic) : Untangles g g' := by
  obtain ⟨nodes, arcs, linked⟩ := sublist_of_removals removals
  refine ⟨acyclic, nodes, arcs, ?_, linked, fun v => ⟨?_, ?_⟩⟩
  · intro before
    obtain rfl | ⟨next, ⟨arc, closes, -⟩, -⟩ := removals.cases_head
    · rfl
    · exact absurd before closes.not_acyclic
  · rintro ⟨arc, listed, ends⟩
    exact ⟨arc, arcs.subset listed, ends⟩
  · exact touched_of_linked simple.loopless fun u v => (linked u v).mpr

/-! ## The search of a layout -/

/-- A search finds an arc as long as there is a cycle. -/
theorem closingArc?_eq_none_iff (closed : g.Closed) : g.closingArc? = none ↔ g.Acyclic := by
  constructor
  · intro none
    obtain ⟨f, rising⟩ := exists_rising_of_closingArc? closed none
    exact acyclic_of_rising rising
  · intro acyclic
    obtain ⟨f, rising⟩ := acyclic.exists_rising
    exact closingArc?_eq_none rising

theorem acyclic_acyclic (closed : g.Closed) : g.acyclic.Acyclic :=
  (closingArc?_eq_none_iff closed.acyclic).mp g.closingArc?_acyclic

theorem removals_breakCycles (n : Nat) (g : Digraph ι) :
    ReflTransGen Removes g (breakCycles n g) := by
  induction n generalizing g with
  | zero => exact .refl
  | succ n ih =>
      rw [breakCycles]
      split
      · exact .refl
      · next arc closing => exact .head ⟨arc, closes_of_closingArc? closing, rfl⟩ (ih _)

/-! ## Containers -/

/-- Edges that are lifted to the members of a container join different members. -/
theorem simple_lifted (parents : Parents ι) (edges : List (ι × ι)) (members : List ι) :
    (ofLists members (parents.liftedArcs edges members)).Simple := by
  have lifted : ∀ arc ∈ (ofLists members (parents.liftedArcs edges members)).arcs,
      arc.1 ∈ members ∧ arc.2 ∈ members ∧ arc.1 ≠ arc.2 := by
    rintro ⟨u, v⟩ listed
    obtain ⟨e, -, source, target, other⟩ :=
      Parents.mem_liftedArcs.mp (List.mem_eraseDups.mp listed)
    exact ⟨(Parents.within_of_lift source).1, (Parents.within_of_lift target).1, other⟩
  refine ⟨fun arc listed => ?_, fun arc listed => (lifted arc listed).2.2⟩
  obtain ⟨hu, hv, -⟩ := lifted arc listed
  exact ⟨List.mem_eraseDups.mpr hu, List.mem_eraseDups.mpr hv⟩

/-- Breaking cycles comes to an end and leaves the connected parts of a graph whole. Whichever
closing arcs are given up, in whatever order, there are not more rounds than arcs, a round is
possible as long as there is a cycle, and where there is none the graph is untangled. The graph
that a layout ranks is one of these, and the members of every container make a simple graph. -/
theorem breaking_untangles :
    (∀ (parents : Parents ι) (edges : List (ι × ι)) (members : List ι),
      (ofLists members (parents.liftedArcs edges members)).Simple) ∧
    ∀ g : Digraph ι, g.Simple →
      (∀ run, (g :: run).IsChain Removes → run.length ≤ g.arcs.length) ∧
      (∀ g', ReflTransGen Removes g g' →
        (¬g'.Acyclic ∧ ∃ next, g'.Removes next) ∨ Untangles g g') ∧
      ReflTransGen Removes g g.acyclic ∧ Untangles g g.acyclic := by
  refine ⟨simple_lifted, fun g simple => ?_⟩
  have removals : ReflTransGen Removes g g.acyclic := removals_breakCycles _ g
  refine ⟨fun run => length_le_of_removals, ?_, removals, ?_⟩
  · intro g' removals
    by_cases acyclic : g'.Acyclic
    · exact .inr (untangles_of_removals simple removals acyclic)
    · obtain ⟨arc, closes⟩ := exists_closes acyclic
      exact .inl ⟨acyclic, _, arc, closes, rfl⟩
  · exact untangles_of_removals simple removals (acyclic_acyclic simple.closed)

end

/-- Two cycles that share an arc, and a way out. -/
def knotted : Digraph String where
  nodes := ["draft", "review", "fix", "ship"]
  arcs := [("draft", "review"), ("review", "fix"), ("fix", "review"), ("fix", "draft"),
    ("review", "ship")]

theorem simple_knotted : knotted.Simple where
  closed := by
    rw [Closed]
    decide
  loopless := by decide

/-- Both ways back are given up. -/
theorem breaking_untangles_knotted :
    knotted.Simple ∧ knotted.Leads "fix" "draft" ∧
      knotted.acyclic.arcs = [("draft", "review"), ("review", "fix"), ("review", "ship")] ∧
      Untangles knotted knotted.acyclic := by
  refine ⟨simple_knotted, ?_, by decide, ?_⟩
  · rw [Leads]
    decide
  · exact (breaking_untangles.2 knotted simple_knotted).2.2.2

end Digraph

end FlowDiagram.Layout
