import FlowDiagram.Proofs.Graph.Parts
/-!
# Flows without loops

A flow is `Loopless` if no transitions lead around in a circle, neither between its own keys
nor between those of a scope inside it. Its keys have heights that rise along transitions, and
so the nodes of its graph can be given heights.

A link leads from a way out of one part of a scope to the way into another part. Its ends lie
below the nodes of two keys, which have the same parent, and the link `Climbs` because the
second of these nodes is higher. Each scope is given its own heights when it is connected, and
later links never end in two parts of a scope that is finished.
-/

namespace FlowDiagram.Graph

open Definition Transition Relation

/-! ## Heights of keys -/

/-- Some transition of a flow leads from one of its keys to another one. -/
def Leads (flow : Flow) (a b : String) : Prop :=
  ∃ ts, ofScope flow = .ok ts ∧ ∃ t ∈ ts, Joins flow.entries.names t a b

/-- In no scope of a flow transitions lead from a key back to itself. -/
inductive Loopless : Flow → Prop where
  | intro {flow : Flow} (own : ∀ key, ¬TransGen (Leads flow) key key)
      (inside : ∀ entry ∈ flow.entries, ∀ body, entry.2.embedded? = some body →
        Loopless body) : Loopless flow

theorem Loopless.of_embedded {flow : Flow} (own : ∀ key, ¬TransGen (Leads flow) key key)
    (inside : ∀ body ∈ flow.entries.filterMap (·.2.embedded?), Loopless body) : Loopless flow :=
  .intro own fun entry member body embeds =>
    inside body (List.mem_filterMap.mpr ⟨entry, member, embeds⟩)

theorem Loopless.exists_height {flow : Flow} (loopless : Loopless flow) :
    ∃ height : String → Nat, ∀ a b, Leads flow a b → height a < height b := by
  cases loopless with
  | intro own inside =>
      have known : ∀ a b, Leads flow a b → a ∈ flow.entries.names := by
        rintro a b ⟨ts, -, t, -, joins⟩
        exact joins.known_source
      exact FlowDiagram.exists_height known own

/-- Transitions that rise in some way lead around in no circle. -/
theorem not_transGen_leads {flow : Flow} (height : String → Nat) {ts : List Transition}
    (derived : ofScope flow = .ok ts)
    (rises : ∀ t ∈ ts, ∀ a ∈ t.source, ∀ b ∈ t.target, height a < height b) (key : String) :
    ¬TransGen (Leads flow) key key := by
  have leads : ∀ a b, Leads flow a b → height a < height b := by
    rintro a b ⟨ts', derived', t, used, joins⟩
    obtain rfl := Except.ok.inj (derived.symm.trans derived')
    exact rises t used a joins.source b joins.target
  have path : ∀ b, TransGen (Leads flow) key b → height key < height b := by
    intro b path
    induction path with
    | single last => exact leads _ _ last
    | tail before last ih => exact ih.trans (leads _ _ last)
  exact fun circle => (path key circle).false

/-! ## Climbing links -/

/-- The ends of a link lie under two nodes with the same parent, the second one higher. -/
def Climbs (height : String → Nat) (nodes : List Node) (l : Link) : Prop :=
  ∃ m ∈ nodes, ∃ n ∈ nodes, m.parent = n.parent ∧ Inside nodes m.id l.source ∧
    Inside nodes n.id l.target ∧ height m.id < height n.id

theorem Climbs.mono {height height' : String → Nat} {nodes nodes' : List Node} {l : Link}
    (h : Climbs height nodes l) (more : nodes ⊆ nodes')
    (same : ∀ x ∈ nodes.map Node.id, height' x = height x) : Climbs height' nodes' l := by
  obtain ⟨m, hm, n, hn, beside, source, target, less⟩ := h
  refine ⟨m, more hm, n, more hn, beside, source.mono more, target.mono more, ?_⟩
  rw [same _ (List.mem_map_of_mem hm), same _ (List.mem_map_of_mem hn)]
  exact less

/-! ## Scopes with heights -/

/-- The nodes of the keys of a scope are as high as their keys, and the links of what the
scope emits climb. -/
structure Scaled (heights : String → Nat) (specs : List (String × NodeSpec))
    (parent : Option String) (emitted : Emitted) (parts : List Part) (height : String → Nat) :
    Prop where
  parted : Parted specs parent emitted parts
  heads : ∀ p ∈ parts, height p.head.id = heights p.key
  climbs : ∀ l ∈ emitted.links, Climbs height emitted.nodes l

namespace Scaled

variable {specs : List (String × NodeSpec)} {parent : Option String} {emitted first : Emitted}
variable {parts : List Part} {height heights own : String → Nat} {ts : List Transition}

theorem empty (heights : String → Nat) (parent : Option String) :
    Scaled heights [] parent {} [] heights where
  parted := .empty parent
  heads := fun _ member => absurd member List.not_mem_nil
  climbs := fun _ member => absurd member List.not_mem_nil

/-- One more part in front of the others keeps its own heights. -/
theorem cons (h : Scaled heights specs parent emitted parts height) (p : Part)
    (parted : Parted ((p.key, p.head.spec) :: specs) parent (first.append emitted) (p :: parts))
    (apart : List.Disjoint first.ids emitted.ids) (listed : p.head.id ∈ first.ids)
    (top : own p.head.id = heights p.key) (climbs : ∀ l ∈ first.links, Climbs own first.nodes l) :
    ∃ joint, Scaled heights ((p.key, p.head.spec) :: specs) parent (first.append emitted)
      (p :: parts) joint := by
  let joint (x : String) : Nat := if x ∈ first.ids then own x else height x
  have here : ∀ x ∈ first.ids, joint x = own x := fun x member => if_pos member
  have there : ∀ x ∈ emitted.ids, joint x = height x := fun x member =>
    if_neg fun early => apart early member
  refine ⟨joint, parted, ?_, ?_⟩
  · refine List.forall_mem_cons.mpr ⟨(here _ listed).trans top, ?_⟩
    intro q part
    rw [there _ (h.parted.mem_ids_of_mem part q.head_mem_ids), h.heads q part]
  · intro l member
    rw [Emitted.links_append] at member
    obtain early | later := List.mem_append.mp member
    · exact (climbs l early).mono (List.subset_append_left _ _) here
    · exact (h.climbs l later).mono (List.subset_append_right _ _) there

/-- Transitions along which the heights of keys rise are connected by climbing links. -/
theorem climbs_connect (h : Scaled heights specs parent emitted parts height)
    (rises : ∀ t ∈ ts, ∀ a b, Joins (Entries.names specs) t a b → heights a < heights b)
    (start : Option String) :
    ∀ l ∈ (connect emitted start ts).links, Climbs height emitted.nodes l := by
  intro l member
  obtain old | ⟨t, used, added⟩ := (mem_links_connect _ _).mp member
  · exact h.climbs l old
  · obtain ⟨source, target, attached, out, into, -⟩ := mem_linksOf.mp added
    obtain ⟨p, part, q, part', joins, same⟩ := h.parted.exists_joins attached
    obtain ⟨rfl, rfl⟩ := Prod.mk.inj same
    have here := h.parted.sound p part
    have there := h.parted.sound q part'
    have entry : l.target ∈ q.ids := into ▸ there.entry
    refine ⟨p.head, h.parted.nodes_subset part List.mem_cons_self, q.head,
      h.parted.nodes_subset part' List.mem_cons_self, here.top.trans there.top.symm,
      (here.inside _ (here.exits _ out)).mono (h.parted.nodes_subset part),
      (there.inside _ entry).mono (h.parted.nodes_subset part'), ?_⟩
    rw [h.heads p part, h.heads q part']
    exact rises t used p.key q.key joins

end Scaled

section

variable {within : String} {parent : Option String} {taken taken' : List String}

/-- Without loops in the scopes inside it, a pass can be scaled to any heights of its keys. -/
theorem Emits.exists_scaled {specs : List (String × NodeSpec)} {emitted : Emitted}
    (run : Emits within parent taken specs emitted taken')
    (loopless : ∀ entry ∈ specs, ∀ body, entry.2.embedded? = some body → Loopless body)
    (heights : String → Nat) :
    ∃ parts height, Scaled heights specs parent emitted parts height := by
  induction run generalizing heights with
  | nil => exact ⟨[], heights, .empty heights _⟩
  | @plain within key parent taken taken' spec rest others closed after ih =>
      obtain ⟨parts, height, scaled⟩ :=
        ih (fun entry later => loopless entry (List.mem_cons_of_mem _ later)) heights
      have parted := scaled.parted.cons_plain (claim taken (qualify within key)) key spec
      have apart : List.Disjoint [claim taken (qualify within key)] others.ids :=
        List.singleton_disjoint.mpr after.head_not_mem
      let own (_ : String) : Nat := heights key
      exact ⟨_, scaled.cons (.plain parent _ key spec) parted apart List.mem_cons_self
        (rfl : own _ = heights key) fun _ member => absurd member List.not_mem_nil⟩
  | @group within id key parent taken between taken' spec body inner ts rest others claimed embeds
      inside derived after ihInside ihAfter =>
      obtain ⟨parts, height, scaled⟩ :=
        ihAfter (fun entry later => loopless entry (List.mem_cons_of_mem _ later)) heights
      have bodyLoopless := loopless _ List.mem_cons_self body embeds
      obtain ⟨innerHeights, rises⟩ := bodyLoopless.exists_height
      obtain ⟨innerParts, innerHeight, innerScaled⟩ :=
        ihInside (by cases bodyLoopless; assumption) innerHeights
      have connected := innerScaled.climbs_connect
        (fun t used a b joins => rises a b ⟨ts, derived, t, used, joins⟩) body.start.value?
      -- The group is as high as its key, and its scope keeps the heights of its own.
      let own (x : String) : Nat := if x = id then heights key else innerHeight x
      have kept : ∀ x ∈ inner.ids, own x = innerHeight x := by
        intro x member
        have other : x ≠ id := fun same => inside.head_not_mem (same ▸ member)
        exact if_neg other
      have parted := scaled.parted.cons_group inside key spec body.start.value? ts
      exact ⟨_, scaled.cons (.group parent id key spec _) parted (inside.disjoint_after after)
        List.mem_cons_self (if_pos rfl : own id = heights key)
        fun l member => (connected l member).mono (List.subset_cons_self _ _) kept⟩

/-- Along the links of a graph without loops its nodes have rising heights. -/
theorem exists_climbing_of_expand {flow : Flow} {g : Graph} (loopless : Loopless flow)
    (h : expand within parent taken flow = .ok (g, taken')) :
    ∃ height, ∀ l ∈ g.links, Climbs height g.nodes l := by
  obtain ⟨emitted, ts, run, derived, rfl⟩ := expand_eq_ok_iff.mp h
  obtain ⟨heights, rises⟩ := loopless.exists_height
  obtain ⟨parts, height, scaled⟩ := run.exists_scaled (by cases loopless; assumption) heights
  exact ⟨height, scaled.climbs_connect
    (fun t used a b joins => rises a b ⟨ts, derived, t, used, joins⟩) _⟩

end

end FlowDiagram.Graph
