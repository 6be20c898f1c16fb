import FlowDiagram.Proofs.Graph.Coherence
import Mathlib.Data.Set.Insert
/-!
# Boundaries of groups

Edges into a group and out of it are emitted by the scope around it or by any scope further
out. All of them go through the ports of scopes, and a port shows little of a group: its way
in lies in the group only if it is the group's own, and of the group's ways out it shows all
or none. `Gate` says this, every operation of the expansion keeps it, and it gives the law of
`expand_bounded`: one way in, and a full product on the way out.

The group itself is described by the parents of nodes. `Block` compares this with the
stretch of nodes that the group's scope emitted.
-/

namespace FlowDiagram.Graph

open Definition Transition

/-! ## What lies in a group -/

/-- A group and its descendants by parent. -/
inductive Inside (nodes : List Node) (group : String) : String → Prop
  | self : Inside nodes group group
  | child {n : Node} {p : String} (member : n ∈ nodes) (parent : n.parent = some p)
      (up : Inside nodes group p) : Inside nodes group n.id

namespace Inside

variable {nodes nodes' : List Node} {a b c : String}

theorem mono (h : Inside nodes a b) (sub : nodes ⊆ nodes') : Inside nodes' a b := by
  induction h with
  | self => exact .self
  | child member parent up ih => exact .child (sub member) parent ih

theorem trans (first : Inside nodes a b) (second : Inside nodes b c) : Inside nodes a c := by
  induction second with
  | self => exact first
  | child member parent up ih => exact .child member parent ih

end Inside

variable {within : String} {parent : Option String} {taken taken' : List String}

/-- The nodes stand under the parent of their scope or under each other. -/
def Rooted (emitted : Emitted) (parent : Option String) : Prop :=
  ∀ n ∈ emitted.nodes, n.parent = parent ∨ ∃ p ∈ emitted.ids, n.parent = some p

namespace Rooted

variable {emitted a b : Emitted} {id : String}

theorem plainNode (parent : Option String) (id key : String) (spec : NodeSpec) :
    Rooted (Graph.plainNode parent id key spec) parent :=
  fun _ member => .inl (List.mem_singleton.mp member ▸ rfl)

theorem group (h : Rooted emitted (some id)) (parent : Option String) (key : String)
    (spec : NodeSpec) (start : Option String) (ts : List Transition) :
    Rooted (Graph.group parent id key spec (connect emitted start ts)) parent := by
  intro n member
  obtain rfl | nested := List.mem_cons.mp member
  · exact .inl rfl
  · obtain top | ⟨p, known, up⟩ := h n nested
    · exact .inr ⟨id, List.mem_cons_self, top⟩
    · exact .inr ⟨p, List.mem_cons_of_mem _ known, up⟩

theorem append (ha : Rooted a parent) (hb : Rooted b parent) :
    Rooted (a.append b) parent := by
  intro n member
  rw [Emitted.ids_append]
  obtain left | right := List.mem_append.mp member
  · exact (ha n left).imp_right fun ⟨p, known, up⟩ => ⟨p, List.mem_append_left _ known, up⟩
  · exact (hb n right).imp_right fun ⟨p, known, up⟩ => ⟨p, List.mem_append_right _ known, up⟩

end Rooted

namespace Emits

variable {specs : List (String × NodeSpec)} {emitted : Emitted}

theorem rooted (run : Emits within parent taken specs emitted taken') :
    Rooted emitted parent := by
  induction run with
  | nil => exact fun n member => absurd member List.not_mem_nil
  | plain closed after ih => exact (Rooted.plainNode _ _ _ _).append ih
  | group claimed embeds inside derived after ihInside ihAfter =>
      exact (ihInside.group _ _ _ _ _).append ihAfter

/-- What a scope emits lies in the group around it. -/
theorem inside_parent (run : Emits within parent taken specs emitted taken') :
    ∀ q, parent = some q → ∀ x ∈ emitted.ids, Inside emitted.nodes q x := by
  induction run with
  | nil => exact fun q _ x member => absurd member List.not_mem_nil
  | plain closed after ih =>
      intro q top x member
      rw [Emitted.ids_append, Emitted.ids_plainNode] at member
      obtain rfl | later := List.mem_cons.mp member
      · exact .child (List.mem_append_left _ List.mem_cons_self) top .self
      · exact (ih q top x later).mono (List.subset_append_right _ _)
  | @group within id key parent taken between taken' spec body inner ts rest others claimed embeds
      inside derived after ihInside ihAfter =>
      intro q top x member
      rw [Emitted.ids_append, Emitted.ids_group, ids_connect] at member
      obtain here | later := List.mem_append.mp member
      · let g := connect inner body.start.value? ts
        have own : Inside ((Graph.group parent id key spec g).append others).nodes q id :=
          .child (List.mem_append_left _ List.mem_cons_self) top .self
        obtain rfl | nested := List.mem_cons.mp here
        · exact own
        · refine own.trans ((ihInside id rfl x nested).mono ?_)
          exact fun n known => List.mem_append_left _ (List.mem_cons_of_mem _ known)
      · exact (ihAfter q top x later).mono (List.subset_append_right _ _)

end Emits

/-- Some identifiers are those of a group and of all nodes in it, seen from a scope whose
nodes stand under `parent`. -/
structure Block (nodes : List Node) (parent : Option String) (group : String)
    (block : Set String) : Prop where
  known : ∀ x ∈ block, x ∈ nodes.map Node.id
  self : group ∈ block
  inside : ∀ x ∈ block, Inside nodes group x
  closed : ∀ n ∈ nodes, ∀ p ∈ block, n.parent = some p → n.id ∈ block ∨ parent = some p

namespace Block

variable {nodes more : List Node} {group id : String} {block : Set String}

/-- Unless the whole scope stands in the group, the group holds just its block. -/
theorem inside_iff (h : Block nodes parent group block) (outer : ∀ q ∈ block, parent ≠ some q)
    {x : String} : Inside nodes group x ↔ x ∈ block := by
  refine ⟨fun lies => ?_, h.inside x⟩
  induction lies with
  | self => exact h.self
  | @child n p member up _ ih => exact (h.closed n member p ih up).resolve_right (outer p ih)

/-- Other nodes of the scope, with what stands under them, add nothing to the group. -/
theorem extend (h : Block nodes parent group block) {whole : List Node}
    (split : ∀ n, n ∈ whole ↔ n ∈ nodes ∨ n ∈ more)
    (apart : ∀ x ∈ block, x ∉ more.map Node.id)
    (others : ∀ n ∈ more, n.parent = parent ∨ ∃ p ∈ more.map Node.id, n.parent = some p) :
    Block whole parent group block where
  known := by
    intro x member
    obtain ⟨n, listed, same⟩ := List.mem_map.mp (h.known x member)
    exact List.mem_map.mpr ⟨n, (split n).mpr (.inl listed), same⟩
  self := h.self
  inside := fun x member => (h.inside x member).mono fun n listed => (split n).mpr (.inl listed)
  closed := by
    intro n member p inBlock up
    obtain own | other := (split n).mp member
    · exact h.closed n own p inBlock up
    · obtain top | ⟨p', known, up'⟩ := others n other
      · exact .inr (top ▸ up)
      · obtain rfl := Option.some.inj (up'.symm.trans up)
        exact absurd known (apart p' inBlock)

/-- A group around the scope adds its own node, under which the scope stands. -/
theorem wrap (h : Block nodes (some id) group block) (outside : id ∉ block) {node : Node}
    (top : node.parent = parent) : Block (node :: nodes) parent group block where
  known := fun x member => List.mem_cons_of_mem _ (h.known x member)
  self := h.self
  inside := fun x member => (h.inside x member).mono (List.subset_cons_self _ _)
  closed := by
    intro n member p inBlock up
    obtain rfl | nested := List.mem_cons.mp member
    · exact .inr (top ▸ up)
    · refine .inl ((h.closed n nested p inBlock up).resolve_right fun same => ?_)
      exact outside (Option.some.inj same ▸ inBlock)

end Block

/-! ## What crosses the boundary -/

/-- Links enter a block at one place, and they leave it as a full product of some of its
identifiers with some labelled targets. -/
structure Crossing (links : List Link) (block : Set String) (way : String) (exits : Set String) :
    Prop where
  inward : ∀ l ∈ links, l.source ∉ block → l.target ∈ block → l.target = way
  outward : ∃ targets : Set (String × Option String), ∀ source target label,
    (⟨source, target, label⟩ ∈ links ∧ source ∈ block ∧ target ∉ block) ↔
      source ∈ exits ∧ (target, label) ∈ targets

/-- A port shows of a block its one way in, if any, and all of its ways out or none. -/
structure Faces (p : Ports) (block : Set String) (way : String) (exits : Set String) : Prop where
  entry : p.entry ∈ block → p.entry = way
  exits : (∀ x, x ∈ exits ↔ x ∈ p.exits ∧ x ∈ block) ∨ ∀ x ∈ p.exits, x ∉ block

/-- The links of some emitted nodes cross the boundary of a block, and their ports face it. -/
structure Gate (emitted : Emitted) (block : Set String) (way : String) (exits : Set String) :
    Prop where
  sub : exits ⊆ block
  crossing : Crossing emitted.links block way exits
  faces : ∀ key p, (key, p) ∈ emitted.ports → Faces p block way exits

section

variable {emitted a b : Emitted} {block exits : Set String} {way id : String}
variable {start : Option String} {ts : List Transition}

/-- A port that shows some of a block's ways out shows them all. -/
theorem Gate.shows (h : Gate emitted block way exits) {key x : String} {p : Ports}
    (port : (key, p) ∈ emitted.ports) (out : x ∈ p.exits) (inside : x ∈ block) :
    ∀ y, y ∈ exits ↔ y ∈ p.exits ∧ y ∈ block :=
  (h.faces key p port).exits.resolve_right fun hidden => hidden x out inside

/-- The transitions of a scope add a product over the same ways out. -/
theorem Gate.crossing_connect (h : Gate emitted block way exits) (start : Option String)
    (ts : List Transition) : Crossing (connect emitted start ts).links block way exits := by
  obtain ⟨targets, product⟩ := h.crossing.outward
  let added : Set (String × Option String) := { target | target.1 ∉ block ∧
    ∃ t ∈ ts, ∃ source dest, attached? emitted.ports t = some (source, dest) ∧
      (∃ x ∈ source.exits, x ∈ block) ∧ dest.entry = target.1 ∧ t.action = target.2 }
  refine ⟨?_, targets ∪ added, fun source target label => ?_⟩
  · intro l member outside inside
    obtain old | ⟨t, used, new⟩ := (mem_links_connect emitted start).mp member
    · exact h.crossing.inward l old outside inside
    · obtain ⟨_, dest, attached, -, enters, -⟩ := mem_linksOf.mp new
      obtain ⟨-, key, -, -, -, port, -⟩ := attached?_eq_some attached
      rw [enters] at inside ⊢
      exact (h.faces key dest port).entry inside
  · rw [mem_links_connect]
    constructor
    · rintro ⟨old | ⟨t, used, new⟩, inside, outside⟩
      · have crosses := (product source target label).mp ⟨old, inside, outside⟩
        exact ⟨crosses.1, .inl crosses.2⟩
      · obtain ⟨leaving, dest, attached, out, enters, labelled⟩ := mem_linksOf.mp new
        obtain ⟨key, -, -, -, port, -, -⟩ := attached?_eq_some attached
        have isExit := (h.shows port out inside source).mpr ⟨out, inside⟩
        refine ⟨isExit, .inr ⟨outside, t, used, leaving, dest, attached, ?_⟩⟩
        exact ⟨⟨source, out, inside⟩, enters.symm, labelled.symm⟩
    · rintro ⟨isExit, old | new⟩
      · obtain ⟨member, crosses⟩ := (product source target label).mpr ⟨isExit, old⟩
        exact ⟨.inl member, crosses⟩
      · obtain ⟨outside, t, used, leaving, dest, attached, ⟨x, out, inside⟩, ends⟩ := new
        obtain ⟨key, -, -, -, port, -, -⟩ := attached?_eq_some attached
        obtain ⟨shown, stays⟩ := (h.shows port out inside source).mp isExit
        refine ⟨.inr ⟨t, used, mem_linksOf.mpr ?_⟩, stays, outside⟩
        exact ⟨leaving, dest, attached, shown, ends.1.symm, ends.2.symm⟩

/-- The ways out that a scope hands outward show all of a block's or none. -/
theorem Gate.exits_connect (h : Gate emitted block way exits) (start : Option String)
    (ts : List Transition) :
    (∀ x, x ∈ exits ↔ x ∈ (connect emitted start ts).exits ∧ x ∈ block) ∨
      ∀ x ∈ (connect emitted start ts).exits, x ∉ block := by
  by_cases shown : ∃ x ∈ (connect emitted start ts).exits, x ∈ block
  · obtain ⟨x, handed, inside⟩ := shown
    obtain ⟨key, p, port, out, unused⟩ := (mem_exits_connect emitted start).mp handed
    refine .inl fun y => ⟨fun isExit => ?_, fun ⟨handed', inside'⟩ => ?_⟩
    · obtain ⟨out', inside'⟩ := (h.shows port out inside y).mp isExit
      exact ⟨(mem_exits_connect emitted start).mpr ⟨key, p, port, out', unused⟩, inside'⟩
    · obtain ⟨key', p', port', out', -⟩ := (mem_exits_connect emitted start).mp handed'
      exact (h.shows port' out' inside' y).mpr ⟨out', inside'⟩
  · push Not at shown
    exact .inr shown

/-- A group around the scope is a port that faces the block as the scope does. -/
theorem Gate.around (h : Gate emitted block way exits) (outside : id ∉ block)
    (parent : Option String) (key : String) (spec : NodeSpec) (start : Option String)
    (ts : List Transition) :
    Gate (group parent id key spec (connect emitted start ts)) block way exits := by
  refine ⟨h.sub, h.crossing_connect start ts, ?_⟩
  intro key' p port
  obtain ⟨entry, exits'⟩ := Emitted.port_of_mem_group _ _ _ _ _ port
  constructor
  · intro inside
    rw [entry] at inside ⊢
    cases entered : nonEmpty (connect emitted start ts).entry with
    | none =>
        rw [entered] at inside
        exact absurd inside outside
    | some x =>
        rw [entered] at inside
        have enters := (Option.filter_eq_some_iff.mp entered).1
        obtain ⟨key'', p', port', rfl⟩ := entry_connect emitted start enters
        exact (h.faces key'' p' port').entry inside
  · rw [exits', Emitted.exits_group]
    split
    · exact .inr fun x same => List.mem_singleton.mp same ▸ outside
    · exact h.exits_connect start ts

/-- What lies beside a block neither crosses its boundary nor shows any of it. -/
theorem Gate.beside (h : Gate a block way exits) (other : b.Coherent)
    (apart : ∀ x ∈ block, x ∉ b.ids) {whole : Emitted}
    (links : ∀ l, l ∈ whole.links ↔ l ∈ a.links ∨ l ∈ b.links)
    (ports : ∀ e, e ∈ whole.ports ↔ e ∈ a.ports ∨ e ∈ b.ports) :
    Gate whole block way exits := by
  obtain ⟨targets, product⟩ := h.crossing.outward
  refine ⟨h.sub, ⟨?_, targets, fun source target label => ?_⟩, ?_⟩
  · intro l member outside inside
    obtain own | foreign := (links l).mp member
    · exact h.crossing.inward l own outside inside
    · exact absurd (other.ends_mem l foreign).2 (apart _ inside)
  · rw [links, ← product]
    refine ⟨fun ⟨member, inside, outside⟩ => ?_, fun ⟨own, crosses⟩ => ⟨.inl own, crosses⟩⟩
    obtain own | foreign := member
    · exact ⟨own, inside, outside⟩
    · exact absurd (other.ends_mem _ foreign).1 (apart _ inside)
  · intro key p port
    obtain own | foreign := (ports (key, p)).mp port
    · exact h.faces key p own
    · refine ⟨fun inside => ?_, .inr fun x out inside => ?_⟩
      · have entry := other.entry_mem _ (Emitted.mem_entries.mpr ⟨key, p, foreign, rfl⟩)
        exact absurd entry (apart _ inside)
      · have exit := other.exit_mem (Emitted.mem_exits.mpr ⟨key, p, foreign, out⟩)
        exact apart x inside exit

/-- A group just emitted has no link across its boundary, and its one port shows all of it. -/
theorem gate_group {inner : Graph} (h : inner.IsCoherent) (fresh : id ∉ inner.ids)
    (parent : Option String) (key : String) (spec : NodeSpec) :
    let e := group parent id key spec inner
    Gate e { x | x ∈ e.ids } ((nonEmpty inner.entry).getD id) { x | x ∈ e.exits } := by
  intro e
  have coherent : e.Coherent := h.group fresh parent key spec
  refine ⟨fun x out => coherent.exit_mem out, ⟨?_, ∅, fun source target label => ?_⟩, ?_⟩
  · exact fun l member outside inside => absurd (coherent.ends_mem l member).1 outside
  · refine ⟨fun ⟨member, _, outside⟩ => ?_, fun ⟨_, no⟩ => absurd no (Set.notMem_empty _)⟩
    exact absurd (coherent.ends_mem _ member).2 outside
  · intro key' p port
    obtain ⟨entry, exits'⟩ := Emitted.port_of_mem_group _ _ _ _ _ port
    refine ⟨fun _ => entry, .inl fun x => ?_⟩
    rw [exits']
    exact ⟨fun out => ⟨out, coherent.exit_mem out⟩, And.left⟩

/-! ## Blocks with gates -/

/-- A group among emitted nodes has a block with a gate. -/
def Enclosed (emitted : Emitted) (parent : Option String) (group : String) : Prop :=
  ∃ block way exits, Block emitted.nodes parent group block ∧ Gate emitted block way exits

namespace Enclosed

variable {group : String}

theorem append (h : Enclosed a parent group) (other : b.Coherent)
    (apart : List.Disjoint a.ids b.ids) (rooted : Rooted b parent) :
    Enclosed (a.append b) parent group := by
  obtain ⟨block, way, exits, lies, gate⟩ := h
  have outside : ∀ x ∈ block, x ∉ b.ids := fun x member => apart (lies.known x member)
  refine ⟨block, way, exits, ?_, ?_⟩
  · exact lies.extend (fun n => List.mem_append) outside rooted
  · exact gate.beside other outside (fun l => by simp) (fun e => by simp)

theorem prepend (h : Enclosed b parent group) (other : a.Coherent)
    (apart : List.Disjoint a.ids b.ids) (rooted : Rooted a parent) :
    Enclosed (a.append b) parent group := by
  obtain ⟨block, way, exits, lies, gate⟩ := h
  have outside : ∀ x ∈ block, x ∉ a.ids := fun x member there =>
    apart there (lies.known x member)
  refine ⟨block, way, exits, ?_, ?_⟩
  · exact lies.extend (fun n => List.mem_append.trans Or.comm) outside rooted
  · exact gate.beside other outside (fun l => by simp [or_comm]) (fun e => by simp [or_comm])

/-- A group in a scope stays enclosed when the scope is put into a group. -/
theorem around (h : Enclosed emitted (some id) group) (fresh : id ∉ emitted.ids)
    (parent : Option String) (key : String) (spec : NodeSpec) (start : Option String)
    (ts : List Transition) :
    Enclosed (Graph.group parent id key spec (connect emitted start ts)) parent group := by
  obtain ⟨block, way, exits, lies, gate⟩ := h
  have outside : id ∉ block := fun member => fresh (lies.known id member)
  exact ⟨block, way, exits, lies.wrap outside rfl, gate.around outside _ _ _ _ _⟩

/-- A group is enclosed as soon as its scope has been emitted inside it. -/
theorem of_group {inner : Graph} (coherent : inner.IsCoherent) (fresh : id ∉ inner.ids)
    (lies : ∀ x ∈ inner.ids, Inside inner.nodes id x)
    (parent : Option String) (key : String) (spec : NodeSpec) :
    Enclosed (Graph.group parent id key spec inner) parent id := by
  refine ⟨_, _, _, ⟨fun x member => member, List.mem_cons_self, ?_, ?_⟩,
    gate_group coherent fresh parent key spec⟩
  · intro x member
    obtain rfl | nested := List.mem_cons.mp member
    · exact .self
    · exact (lies x nested).mono (List.subset_cons_self _ _)
  · exact fun n member _ _ _ => .inl (List.mem_map_of_mem member)

end Enclosed

end

/-! ## Whole expansions -/

/-- Every group of a pass is enclosed. -/
theorem Emits.enclosed {specs : List (String × NodeSpec)} {emitted : Emitted}
    (run : Emits within parent taken specs emitted taken') :
    ∀ n ∈ emitted.nodes, n.isGroup = true → Enclosed emitted parent n.id := by
  induction run with
  | nil => exact fun n member => absurd member List.not_mem_nil
  | plain closed after ih =>
      intro n member isGroup
      obtain rfl | later := List.mem_cons.mp member
      · contradiction
      have apart := List.singleton_disjoint.mpr after.head_not_mem
      exact (ih n later isGroup).prepend (coherent_plainNode _ _ _ _) apart (.plainNode _ _ _ _)
  | @group _ id key parent _ _ _ spec body inner ts _ _ claimed embeds inside derived after
      ihInside ihAfter =>
      have fresh := inside.head_not_mem
      have coherent := inside.coherent.connect body.start.value? ts
      have apart := inside.disjoint_after after
      intro n member isGroup
      obtain here | later := List.mem_append.mp member
      · refine Enclosed.append ?_ after.coherent apart after.rooted
        obtain rfl | nested := List.mem_cons.mp here
        · exact .of_group coherent fresh (inside.inside_parent _ rfl) _ _ _
        · exact (ihInside n nested isGroup).around fresh _ _ _ _ _
      · have rooted := inside.rooted.group parent key spec body.start.value? ts
        exact (ihAfter n later isGroup).prepend (coherent.group fresh _ _ _) apart rooted

variable {flow : Flow} {g : Graph}

/-- The edges of a graph between a group, with all that lies in it, and the rest. -/
structure Bounded (g : Graph) (group : String) : Prop where
  /-- Edges from outside enter the group at one node. -/
  entry : ∀ e ∈ g.edges, ∀ e' ∈ g.edges,
    ¬Inside g.nodes group e.source → Inside g.nodes group e.target →
    ¬Inside g.nodes group e'.source → Inside g.nodes group e'.target → e.target = e'.target
  /-- Edges to the outside lead from each of some nodes in the group to each of some targets,
  under the label that belongs to the target. -/
  exits : ∃ (exits : Set String) (targets : Set (String × Option String)),
    (∀ x ∈ exits, Inside g.nodes group x) ∧
    ∀ source target label,
      ((∃ e ∈ g.edges, e.source = source ∧ e.target = target ∧ e.label = label) ∧
        Inside g.nodes group source ∧ ¬Inside g.nodes group target) ↔
      source ∈ exits ∧ (target, label) ∈ targets

/-- The edges of all scopes together enter each group at one node and leave it as a full
product. -/
theorem expand_bounded (h : expand within parent taken flow = .ok (g, taken')) {n : Node}
    (member : n ∈ g.nodes) (isGroup : n.isGroup = true) : Bounded g n.id := by
  have coherent := isCoherent_of_expand h
  obtain ⟨emitted, ts, run, -, rfl⟩ := expand_eq_ok_iff.mp h
  obtain ⟨block, way, exits, lies, gate⟩ := run.enclosed n member isGroup
  by_cases outer : ∃ q ∈ block, parent = some q
  · -- The scope itself is said to stand in the group, so nothing lies outside.
    obtain ⟨q, inBlock, top⟩ := outer
    have all : ∀ x ∈ emitted.ids, Inside emitted.nodes n.id x := fun x known =>
      (lies.inside q inBlock).trans (run.inside_parent q top x known)
    refine ⟨fun e listed _ _ outside => ?_, ∅, ∅, fun x no => absurd no (Set.notMem_empty x), ?_⟩
    · exact absurd (all _ (coherent.ends_mem _ (mem_links_of_mem listed)).1) outside
    · rintro source target label
      refine ⟨?_, fun no => absurd no.1 (Set.notMem_empty _)⟩
      rintro ⟨⟨e, listed, -, rfl, -⟩, -, outside⟩
      exact absurd (all _ (coherent.ends_mem _ (mem_links_of_mem listed)).2) outside
  · push Not at outer
    have inside : ∀ x, Inside emitted.nodes n.id x ↔ x ∈ block := fun x => lies.inside_iff outer
    have crossing := gate.crossing_connect flow.start.value? ts
    obtain ⟨targets, product⟩ := crossing.outward
    have enters : ∀ e ∈ (connect emitted flow.start.value? ts).edges,
        ¬Inside emitted.nodes n.id e.source → Inside emitted.nodes n.id e.target →
          e.target = way := by
      intro e listed outside lands
      rw [inside] at outside lands
      exact crossing.inward e.link (mem_links_of_mem listed) outside lands
    refine ⟨?_, exits, targets, fun x isExit => (inside x).mpr (gate.sub isExit), ?_⟩
    · intro e listed e' listed' outside lands outside' lands'
      exact (enters e listed outside lands).trans (enters e' listed' outside' lands').symm
    · intro source target label
      rw [← product, mem_links_iff]
      exact and_congr_right fun _ => and_congr (inside source) (not_congr (inside target))

/-- Both edges out of the inner group's ends are emitted two scopes further out. -/
theorem expand_bounded_reviewing :
    ∃ g taken' n, expand "" none [] reviewing = .ok (g, taken') ∧ n ∈ g.nodes ∧
      n.isGroup = true ∧ n.id = "review_check" ∧ Bounded g n.id := by
  refine ⟨_, _, _, rfl, .tail _ (.tail _ (.tail _ (.head _))), rfl, rfl, ?_⟩
  exact expand_bounded (show expand "" none [] reviewing = .ok _ from rfl)
    (.tail _ (.tail _ (.tail _ (.head _)))) rfl

end FlowDiagram.Graph
