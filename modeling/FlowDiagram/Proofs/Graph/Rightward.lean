import FlowDiagram.Proofs.Graph.Loopless
import FlowDiagram.Proofs.Graph.Outermost
import FlowDiagram.Proofs.Layout.Lifting
import Mathlib.Data.Prod.Lex
/-!
# Edges of a graph without loops lead to the right

The graph of a flow `IsForest`: its nodes have different identifiers and lie under nodes
without a parent. A layout therefore keeps all parents that it knows of. It does not know of
one: the empty name is no parent, so what stands in a group of that name is outermost in the
layout.

Links of a loopless flow climb from one node to a higher one beside it. The layout shows the
same two nodes beside each other, or the nodes of the group with the empty name in its place.
These are ranked first by the height of their group and then by their own, so every edge
rises and leads to the right.
-/

namespace FlowDiagram.Graph

open Definition Transition Layout Parents

/-! ## The empty identifier -/

section

variable {within : String} {parent : Option String} {taken taken' : List String}
variable {specs : List (String × NodeSpec)} {emitted : Emitted}

/-- Only a node of the scope itself can have the empty identifier. -/
theorem Emits.parent_of_empty (run : Emits within parent taken specs emitted taken') :
    ∀ n ∈ emitted.nodes, n.id = "" → n.parent = parent := by
  induction run with
  | nil => exact fun n member => absurd member List.not_mem_nil
  | plain closed after ih =>
      intro n member empty
      obtain rfl | later := List.mem_cons.mp member
      · rfl
      · exact ih n later empty
  | @group within id key parent taken between taken' spec body inner ts rest others claimed embeds
      inside derived after ihInside ihAfter =>
      intro n member empty
      obtain rfl | member := List.mem_cons.mp member
      · rfl
      obtain nested | later := List.mem_append.mp member
      · have known : "" ∈ inner.ids := empty ▸ List.mem_map_of_mem nested
        by_cases named : id = ""
        · exact absurd (named ▸ known) inside.head_not_mem
        · exact absurd rfl (inside.ne_empty named "" known)
      · exact ihAfter n later empty

end

/-! ## Graphs as forests -/

/-- Nodes have different identifiers and lie under nodes without a parent. No nested node
has the empty identifier. -/
structure IsForest (g : Graph) : Prop where
  distinct : g.ids.Nodup
  rooted : ∀ x ∈ g.ids, ∃ r ∈ g.nodes, r.parent = none ∧ Inside g.nodes r.id x
  outer : ∀ n ∈ g.nodes, n.id = "" → n.parent = none

theorem SameButStart.exists_node {g g' : Graph} (same : SameButStart g g') {n : Node}
    (member : n ∈ g.nodes) : ∃ n' ∈ g'.nodes, n'.id = n.id ∧ n'.parent = n.parent := by
  have listed : n.bare ∈ g'.nodes.map Node.bare := same.nodes ▸ List.mem_map_of_mem member
  obtain ⟨n', member', like⟩ := List.mem_map.mp listed
  exact ⟨n', member', (congrArg Node.id like :), (congrArg Node.parent like :)⟩

theorem SameButStart.isForest {g g' : Graph} (same : SameButStart g g') (h : g'.IsForest) :
    g.IsForest where
  distinct := same.ids ▸ h.distinct
  rooted := by
    intro x known
    obtain ⟨r, member, top, lies⟩ := h.rooted x (same.ids ▸ known)
    obtain ⟨r', member', id, parent⟩ := same.symm.exists_node member
    exact ⟨r', member', parent.trans top, id ▸ same.inside_iff.mpr lies⟩
  outer := by
    intro n member empty
    obtain ⟨n', member', id, parent⟩ := same.exists_node member
    exact parent ▸ h.outer n' member' (id.trans empty)

theorem SameButStart.climbs {g g' : Graph} (same : SameButStart g g') {height : String → Nat}
    {l : Link} (h : Climbs height g'.nodes l) : Climbs height g.nodes l := by
  obtain ⟨m, hm, n, hn, beside, source, target, less⟩ := h
  obtain ⟨m', hm', m_id, m_parent⟩ := same.symm.exists_node hm
  obtain ⟨n', hn', n_id, n_parent⟩ := same.symm.exists_node hn
  refine ⟨m', hm', n', hn', ?_, ?_, ?_, ?_⟩
  · exact m_parent.trans (beside.trans n_parent.symm)
  · exact m_id ▸ same.inside_iff.mpr source
  · exact n_id ▸ same.inside_iff.mpr target
  · exact m_id ▸ n_id ▸ less

theorem isForest_of_ofFlow {flow : Flow} {g : Graph} (h : ofFlow flow = .ok g) : g.IsForest := by
  obtain ⟨inner, taken, expanded, like⟩ := exists_expand_of_ofFlow h
  refine like.isForest ?_
  obtain ⟨emitted, ts, run, -, rfl⟩ := expand_eq_ok_iff.mp expanded
  obtain ⟨parts, parted⟩ := run.exists_parted
  refine ⟨run.nodup_ids, ?_, run.parent_of_empty⟩
  intro x known
  obtain ⟨p, part, member⟩ := parted.mem_ids.mp known
  have sound := parted.sound p part
  exact ⟨p.head, parted.nodes_subset part List.mem_cons_self, sound.top,
    (sound.inside x member).mono (parted.nodes_subset part)⟩

namespace IsForest

variable {g : Graph} {m n : Node} {a x p : String}

theorem node_unique (h : g.IsForest) (hm : m ∈ g.nodes) (hn : n ∈ g.nodes) (same : m.id = n.id) :
    m = n :=
  List.inj_on_of_nodup_map h.distinct hm hn same

theorem parent_mem (h : g.IsForest) (member : n ∈ g.nodes) (above : n.parent = some p) :
    p ∈ g.ids := by
  obtain ⟨r, root, top, lies⟩ := h.rooted n.id (List.mem_map_of_mem member)
  generalize path : n.id = x at lies
  cases lies with
  | self =>
      obtain rfl := h.node_unique member root path
      rw [top] at above
      contradiction
  | child member' above' up =>
      obtain rfl := h.node_unique member member' path
      obtain rfl := Option.some.inj (above.symm.trans above')
      cases up with
      | self => exact List.mem_map_of_mem root
      | child further => exact List.mem_map_of_mem further

/-- No node is its own parent. -/
theorem parent_ne (h : g.IsForest) (member : n ∈ g.nodes) : n.parent ≠ some n.id := by
  intro loop
  obtain ⟨r, root, top, lies⟩ := h.rooted n.id (List.mem_map_of_mem member)
  -- A path from a root never arrives at such a node.
  have never : ∀ x, Inside g.nodes r.id x → x ≠ n.id := by
    intro x lies
    induction lies with
    | self =>
        intro same
        obtain rfl := h.node_unique root member same
        rw [top] at loop
        contradiction
    | child member' above up ih =>
        intro same
        obtain rfl := h.node_unique member' member same
        obtain rfl := Option.some.inj (above.symm.trans loop)
        exact ih rfl
  exact never n.id lies rfl

/-! ### Kept parents -/

theorem lookup_declared (h : g.IsForest) (member : n ∈ g.nodes) :
    (declared g.items).lookup n.id = n.parent? := by
  have listed : n.item ∈ g.items := List.mem_map_of_mem member
  have counts := Parents.lookup_declared ((ids_items g).symm ▸ h.distinct) listed
  rw [ids_items] at counts
  refine counts.trans ?_
  change n.parent?.filter _ = _
  cases above : n.parent? with
  | none => rfl
  | some p =>
      have named : n.parent = some p := (Option.filter_eq_some_iff.mp above).1
      refine Option.filter_eq_some_iff.mpr ⟨rfl, decide_eq_true ⟨h.parent_mem member named, ?_⟩⟩
      exact fun same => h.parent_ne member (named.trans (congrArg some same))

theorem grounded_declared (h : g.IsForest) : Grounded (declared g.items) := by
  intro x
  by_cases known : x ∈ g.ids
  · obtain ⟨r, root, top, lies⟩ := h.rooted x known
    induction lies with
    | self =>
        have free : (declared g.items).lookup r.id = none := by
          rw [h.lookup_declared root, Node.parent?, top, Option.filter_none]
        exact ⟨_, .top free⟩
    | @child n p member above up ih =>
        have next := h.lookup_declared member
        cases named : n.parent? with
        | none => exact ⟨_, .top (next.trans named)⟩
        | some q =>
            have same : q = p := Option.some.inj
              ((Option.filter_eq_some_iff.mp named).1.symm.trans above)
            obtain ⟨chain, own⟩ := ih (h.parent_mem member above)
            exact ⟨_, .step (next.trans named) (same ▸ own)⟩
  · have unknown : (declared g.items).lookup x = none := by
      cases found : (declared g.items).lookup x with
      | none => rfl
      | some p =>
          have listed := (mem_of_lookup_declared ((ids_items g).symm ▸ h.distinct) found).1
          exact absurd (ids_items g ▸ listed) known
    exact ⟨_, .top unknown⟩

/-- A layout keeps each parent that has a name. -/
theorem lookup_kept (h : g.IsForest) (member : n ∈ g.nodes) :
    (kept g.items).lookup n.id = n.parent? := by
  rw [kept_eq, cut_of_grounded h.grounded_declared, h.lookup_declared member]

theorem eq_empty_of_inside (h : g.IsForest) (lies : Inside g.nodes a "") : a = "" := by
  generalize empty : "" = x at lies
  cases lies with
  | self => rfl
  | child member above =>
      rw [h.outer _ member empty.symm] at above
      contradiction

/-- What lies under a node does so in the layout, or under a node of the group with the empty
name if the node is that group. -/
theorem exists_holder (h : g.IsForest) (member : m ∈ g.nodes) (lies : Inside g.nodes m.id x) :
    ∃ a ∈ g.nodes, Within (kept g.items) a.id x ∧ a.parent? = m.parent? ∧
      (a = m ∨ m.id = "" ∧ a.parent = some "") := by
  induction lies with
  | self => exact ⟨m, member, .self, rfl, .inl rfl⟩
  | @child n p listed above up ih =>
      by_cases empty : p = ""
      · have named : m.id = "" := h.eq_empty_of_inside (empty ▸ up)
        refine ⟨n, listed, .self, ?_, .inr ⟨named, empty ▸ above⟩⟩
        rw [Node.parent?, Node.parent?, above, h.outer m member named, empty]
        rfl
      · obtain ⟨a, known, inner, beside, which⟩ := ih
        have next : (kept g.items).lookup n.id = some p := by
          rw [h.lookup_kept listed, Node.parent?, above]
          exact Option.filter_eq_some_iff.mpr ⟨rfl, by simpa using empty⟩
        exact ⟨a, known, .step next inner, beside, which⟩

/-! ### Heights in a layout -/

/-- The group with the empty identifier for the nodes in it, and each other node itself. -/
def anchor (g : Graph) (x : String) : String :=
  if ∃ c ∈ g.nodes, c.id = x ∧ c.parent = some "" then "" else x

theorem anchor_of_nested (member : n ∈ g.nodes) (nested : n.parent = some "") :
    anchor g n.id = "" :=
  if_pos ⟨n, member, rfl, nested⟩

theorem anchor_of_other (h : g.IsForest) (member : n ∈ g.nodes) (other : n.parent ≠ some "") :
    anchor g n.id = n.id := by
  refine if_neg ?_
  rintro ⟨c, listed, same, nested⟩
  obtain rfl := h.node_unique listed member same
  exact other nested

/-- What a layout shows in the place of a node has that node as its anchor. -/
theorem anchor_of_holder (h : g.IsForest) {a : Node} (ha : a ∈ g.nodes) (hm : m ∈ g.nodes)
    (other : m.parent ≠ some "") (which : a = m ∨ m.id = "" ∧ a.parent = some "") :
    anchor g a.id = m.id := by
  obtain rfl | ⟨empty, nested⟩ := which
  · exact h.anchor_of_other hm other
  · rw [anchor_of_nested ha nested, empty]

/-- Nodes by the height of their anchor, and below it by their own. -/
def rise (height : String → Nat) (g : Graph) (x : String) : ℕ ×ₗ ℕ :=
  toLex (height (anchor g x), height x)

/-- Where one node is higher than another one beside it, so is what a layout shows in their
places. -/
theorem rise_lt_rise (h : g.IsForest) {height : String → Nat} {a b : Node} (ha : a ∈ g.nodes)
    (hb : b ∈ g.nodes) (hm : m ∈ g.nodes) (hn : n ∈ g.nodes) (beside : m.parent = n.parent)
    (for_m : a = m ∨ m.id = "" ∧ a.parent = some "")
    (for_n : b = n ∨ n.id = "" ∧ b.parent = some "") (less : height m.id < height n.id) :
    rise height g a.id < rise height g b.id := by
  by_cases nested : m.parent = some ""
  · -- Both nodes stand in the group with the empty identifier and are not that group.
    have nested' : n.parent = some "" := beside ▸ nested
    have inner : ∀ {c : Node}, c ∈ g.nodes → c.parent = some "" → c.id ≠ "" := by
      intro c member nested empty
      rw [h.outer c member empty] at nested
      contradiction
    obtain rfl := for_m.resolve_right fun empty => inner hm nested empty.1
    obtain rfl := for_n.resolve_right fun empty => inner hn nested' empty.1
    refine Prod.Lex.toLex_lt_toLex.mpr (.inr ⟨?_, less⟩)
    rw [anchor_of_nested hm nested, anchor_of_nested hn nested']
  · refine Prod.Lex.toLex_lt_toLex.mpr (.inl ?_)
    rw [h.anchor_of_holder ha hm nested for_m, h.anchor_of_holder hb hn (beside ▸ nested) for_n]
    exact less

/-- A climbing link rises in a layout. -/
theorem exists_lifts (h : g.IsForest) {height : String → Nat} {l : Link}
    (climbs : Climbs height g.nodes l) : ∃ a b, Lifts g.items (l.source, l.target) a b ∧
      rise height g a < rise height g b := by
  obtain ⟨m, hm, n, hn, beside, source, target, less⟩ := climbs
  obtain ⟨a, ha, holds, a_top, for_m⟩ := h.exists_holder hm source
  obtain ⟨b, hb, holds', b_top, for_n⟩ := h.exists_holder hn target
  have higher := h.rise_lt_rise ha hb hm hn beside for_m for_n less
  have top : a.parent? = b.parent? :=
    a_top.trans ((congrArg (Option.filter _) beside).trans b_top.symm)
  refine ⟨a.id, b.id, ⟨?_, ?_, ?_, ?_, holds, holds'⟩, higher⟩
  · exact (ids_items g).symm ▸ List.mem_map_of_mem ha
  · exact (ids_items g).symm ▸ List.mem_map_of_mem hb
  · rw [h.lookup_kept ha, h.lookup_kept hb, top]
  · exact fun same => higher.ne (congrArg (rise height g) same)

end IsForest

/-- In the layout of a flow without loops each edge leads from one rectangle to another one
that begins at least the distance of ranks behind it. -/
theorem layout_leads_right {flow : Flow} {g : Graph} (loopless : Loopless flow)
    (h : ofFlow flow = .ok g) {s : Spacing ℚ} (accepted : Settings.Accepted s)
    (padding : s.Padded) :
    ((spots s g.items g.arcs).map Spot.id).Perm g.ids ∧ g.ids.Nodup ∧
      ∀ e ∈ g.edges, e.source ∈ g.ids ∧ e.target ∈ g.ids ∧
        (spotOf (spots s g.items g.arcs) e.source).right + s.rankSeparation ≤
          (spotOf (spots s g.items g.arcs) e.target).left := by
  have sound := Spacing.sound_of_accepted accepted padding
  have forest := isForest_of_ofFlow h
  have distinct := (ids_items g).symm ▸ forest.distinct
  obtain ⟨inner, taken, expanded, like⟩ := exists_expand_of_ofFlow h
  obtain ⟨height, climbs⟩ := exists_climbing_of_expand loopless expanded
  have coherent := isCoherent_of_ofFlow h
  have drawn := ids_spots_perm g.arcs distinct sound
  rw [ids_items] at drawn
  refine ⟨drawn, forest.distinct, ?_⟩
  intro e member
  obtain ⟨source, target⟩ := coherent.ends_mem _ (mem_links_of_mem member)
  have rises : ∀ arc ∈ g.arcs, ∃ a b, Lifts g.items arc a b ∧
      IsForest.rise height g a < IsForest.rise height g b := by
    intro arc listed
    obtain ⟨e, member, rfl⟩ := List.mem_map.mp listed
    have linked : e.link ∈ inner.links := like.links ▸ mem_links_of_mem member
    exact forest.exists_lifts (like.climbs (climbs _ linked))
  have ahead := ahead_of_rising (s := s) distinct sound rises (List.mem_map_of_mem member)
  exact ⟨source, target, ahead⟩

/-- A flow that packs what it picks in two steps before it sends it. -/
def shipping : Flow where
  start := .given "pick"
  nodes := .given [
    ("pick", {}),
    ("pack", {
      others := [("kind", .str "subflow")]
      subflow := .given {
        start := .given "wrap"
        nodes := .given [("wrap", {}), ("label", {})]
        edges := .given [{ source := .given "wrap", target := .given "label" }] } }),
    ("send", {})]
  edges := .given [
    { source := .given "pick", target := .given "pack" },
    { source := .given "pack", target := .given "send" },
    { source := .given "pick", target := .given "send" }]

theorem loopless_shipping : Loopless shipping := by
  refine .of_embedded (not_transGen_leads (["pick", "pack", "send"].idxOf ·) rfl (by decide))
    (List.forall_mem_singleton.mpr ?_)
  exact .of_embedded (not_transGen_leads (["wrap", "label"].idxOf ·) rfl (by decide))
    fun body held => absurd held List.not_mem_nil

/-- The edge into the group leads to a node inside it. -/
theorem layout_leads_right_shipping :
    Loopless shipping ∧ Settings.Accepted Settings.customaryDistances ∧
      Settings.customaryDistances.Padded ∧ ∃ g, ofFlow shipping = .ok g ∧
      g.arcs = [("pack_wrap", "pack_label"), ("pick", "pack_wrap"), ("pack_label", "send"),
        ("pick", "send")] ∧
      (spotOf (spots Settings.customaryDistances g.items g.arcs) "pick").right +
          Settings.customaryDistances.rankSeparation ≤
        (spotOf (spots Settings.customaryDistances g.items g.arcs) "pack_wrap").left := by
  refine ⟨loopless_shipping, Settings.accepted_customaryDistances,
    Spacing.padded_customaryDistances, _, rfl, rfl, ?_⟩
  have right := (layout_leads_right loopless_shipping rfl Settings.accepted_customaryDistances
    Spacing.padded_customaryDistances).2.2
  exact (right ⟨_, "pick", "pack_wrap", none⟩ (.tail _ (.head _))).2.2

end FlowDiagram.Graph
