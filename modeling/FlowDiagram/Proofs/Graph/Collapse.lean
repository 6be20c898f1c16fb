import FlowDiagram.Proofs.Graph.Outermost
/-!
# The collapsed view

The collapsed view of a flow is the graph of a flow with the same outermost scope, in which
no node embeds anything. Its nodes are the outermost keys themselves, while the full view
may have given them other identifiers.

What either view says about its regions depends on the keys and transitions of the
outermost scope alone: `Parted.exists_link_iff` for edges between regions,
`Parted.exists_exit_iff` for ways out and `Parted.exists_entry_iff` for the way in. In the
collapsed view a region is a single node, so the collapsed view is the quotient of the full
one by its regions.
-/

namespace FlowDiagram.Graph

open Definition Transition

/-! ## What regions show -/

namespace Parted

variable {specs : List (String × NodeSpec)} {parent : Option String} {emitted : Emitted}
variable {parts : List Part} {key : String}

/-- Between the parts of different keys there are exactly the links of the transitions that
join the keys. -/
theorem exists_link_iff (h : Parted specs parent emitted parts) (distinct : emitted.ids.Nodup)
    (keyed : (Entries.names specs).Nodup) (start : Option String) (ts : List Transition)
    {a b : String} {label : Option String} (other : a ≠ b) :
    (∃ l ∈ (connect emitted start ts).links, l.label = label ∧
        (∃ p ∈ parts, p.key = a ∧ l.source ∈ p.ids) ∧ ∃ q ∈ parts, q.key = b ∧ l.target ∈ q.ids) ↔
      ∃ t ∈ ts, Joins (Entries.names specs) t a b ∧ t.action = label := by
  constructor
  · rintro ⟨l, member, rfl, ⟨p, part, rfl, leaves⟩, q, part', rfl, lands⟩
    obtain old | ⟨t, used, new⟩ := (mem_links_connect emitted start).mp member
    · obtain ⟨r, within, source, target⟩ := h.links l old
      obtain rfl := h.part_unique distinct within part source leaves
      obtain rfl := h.part_unique distinct within part' target lands
      exact absurd rfl other
    · obtain ⟨source, target, attached, way, enters, labelled⟩ := mem_linksOf.mp new
      obtain ⟨p', from_p, q', to_q, joins, same⟩ := h.exists_joins attached
      obtain ⟨rfl, rfl⟩ := Prod.mk.inj same
      have exit := (h.sound p' from_p).exits _ way
      have entry := (h.sound q' to_q).entry
      obtain rfl := h.part_unique distinct from_p part exit leaves
      obtain rfl := h.part_unique distinct to_q part' (enters ▸ entry) lands
      exact ⟨t, used, joins, labelled.symm⟩
  · rintro ⟨t, used, joins, rfl⟩
    obtain ⟨p, part, rfl⟩ := h.exists_part joins.known_source
    obtain ⟨q, part', rfl⟩ := h.exists_part joins.known_target
    obtain ⟨x, way⟩ := List.exists_mem_of_ne_nil _ (h.sound p part).leads
    have attached := h.attached?_eq keyed part part' joins.source joins.target
    refine ⟨⟨x, q.ports.entry, t.action⟩, (mem_links_connect emitted start).mpr (.inr ?_), rfl,
      ⟨p, part, rfl, (h.sound p part).exits x way⟩, q, part', rfl, (h.sound q part').entry⟩
    exact ⟨t, used, mem_linksOf.mpr ⟨_, _, attached, way, rfl, rfl⟩⟩

/-- A part has a way out of the scope exactly when no transition joins its key to any. -/
theorem exists_exit_iff (h : Parted specs parent emitted parts) (distinct : emitted.ids.Nodup)
    (keyed : (Entries.names specs).Nodup) (start : Option String) (ts : List Transition) :
    (∃ x ∈ (connect emitted start ts).exits, ∃ p ∈ parts, p.key = key ∧ x ∈ p.ids) ↔
      key ∈ Entries.names specs ∧
        ∀ t ∈ ts, ∀ b, ¬Joins (Entries.names specs) t key b := by
  constructor
  · rintro ⟨x, handed, p, part, rfl, member⟩
    obtain ⟨key', found, port, way, unused⟩ := (mem_exits_connect emitted start).mp handed
    obtain ⟨q, part', rfl, rfl⟩ := h.part_of_port port
    obtain rfl := h.part_unique distinct part part' member ((h.sound q part').exits x way)
    refine ⟨h.key_mem part, ?_⟩
    intro t used b joins
    obtain ⟨r, other, rfl⟩ := h.exists_part joins.known_target
    have attached := h.attached?_eq keyed part other joins.source joins.target
    exact absurd (leaves_eq_true.mpr ⟨joins.source, _, attached⟩) (by simp [unused t used])
  · rintro ⟨known, unused⟩
    obtain ⟨p, part, rfl⟩ := h.exists_part known
    obtain ⟨x, way⟩ := List.exists_mem_of_ne_nil _ (h.sound p part).leads
    refine ⟨x, (mem_exits_connect emitted start).mpr ⟨p.key, p.ports, ?_, way, ?_⟩,
      p, part, rfl, (h.sound p part).exits x way⟩
    · exact Entries.mem_of_get? (h.get?_ports keyed part)
    · intro t used
      rw [← Bool.not_eq_true, leaves_eq_true]
      rintro ⟨source, ends, attached⟩
      obtain ⟨p', -, q, -, joins, -⟩ := h.exists_joins attached
      have same := Option.some.inj (source.symm.trans joins.source)
      exact unused t used q.key (same ▸ joins)

/-- The way into the scope leads into the part of the key that the start names. -/
theorem exists_entry_iff (h : Parted specs parent emitted parts) (distinct : emitted.ids.Nodup)
    (keyed : (Entries.names specs).Nodup) (start : Option String) (ts : List Transition) :
    (∃ x, (connect emitted start ts).entry = some x ∧ ∃ p ∈ parts, p.key = key ∧ x ∈ p.ids) ↔
      key ∈ Entries.names specs ∧ nonEmpty start = some key := by
  have entry : (connect emitted start ts).entry =
    ((nonEmpty start).bind emitted.ports.get?).map Ports.entry := rfl
  rw [entry]
  constructor
  · rintro ⟨x, enters, p, part, rfl, member⟩
    obtain ⟨found, named, rfl⟩ := Option.map_eq_some_iff.mp enters
    obtain ⟨key', started, port⟩ := Option.bind_eq_some_iff.mp named
    obtain ⟨q, part', rfl, rfl⟩ := h.part_of_port (Entries.mem_of_get? port)
    obtain rfl := h.part_unique distinct part part' member (h.sound q part').entry
    exact ⟨h.key_mem part, started⟩
  · rintro ⟨known, started⟩
    obtain ⟨p, part, rfl⟩ := h.exists_part known
    refine ⟨p.ports.entry, ?_, p, part, rfl, (h.sound p part).entry⟩
    rw [started, Option.bind_some, h.get?_ports keyed part, Option.map_some]

end Parted

/-- The regions of a graph show the transitions between some keys and nothing else. -/
structure Shows (keys : List String) (start : Option String) (ts : List Transition) (g : Graph) :
    Prop where
  edges : ∀ a b label, a ≠ b →
    ((∃ e ∈ g.edges, e.label = label ∧ Region keys g a e.source ∧ Region keys g b e.target) ↔
      ∃ t ∈ ts, Joins keys t a b ∧ t.action = label)
  exits : ∀ key, (∃ x ∈ g.exits, Region keys g key x) ↔
    key ∈ keys ∧ ∀ t ∈ ts, ∀ b, ¬Joins keys t key b
  entry : ∀ key, (∃ x, g.entry = some x ∧ Region keys g key x) ↔
    key ∈ keys ∧ nonEmpty start = some key

/-- The graph of a flow shows in its regions the transitions of the outermost scope. -/
theorem shows_of_ofFlow {flow : Flow} {g : Graph} (keyed : flow.entries.names.Nodup)
    (h : ofFlow flow = .ok g) :
    ∃ ts, ofScope flow = .ok ts ∧ Shows flow.entries.names flow.start.value? ts g := by
  obtain ⟨inner, taken, expanded, like⟩ := exists_expand_of_ofFlow h
  obtain ⟨emitted, ts, run, derived, rfl⟩ := expand_eq_ok_iff.mp expanded
  obtain ⟨parts, parted⟩ := run.exists_parted
  have distinct := run.nodup_ids
  have region : ∀ key x, Region flow.entries.names g key x ↔ ∃ p ∈ parts, p.key = key ∧ x ∈ p.ids :=
    fun key x => like.region_iff.trans (parted.region_iff distinct _ _)
  refine ⟨ts, derived, ?_, ?_, ?_⟩
  · intro a b label other
    rw [← parted.exists_link_iff distinct keyed flow.start.value? ts other, ← like.links]
    simp only [links, List.mem_map, exists_exists_and_eq_and, region]
    rfl
  · intro key
    rw [← parted.exists_exit_iff distinct keyed flow.start.value? ts, like.exits]
    simp only [region]
  · intro key
    rw [← parted.exists_entry_iff distinct keyed flow.start.value? ts, like.entry]
    simp only [region]

/-! ## The expansion of a flow without embedded scopes -/

theorem exists_part_plain {specs : List (String × NodeSpec)} {parent : Option String}
    {key x : String} :
    (∃ p ∈ specs.map (fun entry => Part.plain parent entry.1 entry.1 entry.2),
        p.key = key ∧ x ∈ p.ids) ↔
      key ∈ Entries.names specs ∧ x = key := by
  constructor
  · rintro ⟨p, member, rfl, known⟩
    obtain ⟨entry, listed, rfl⟩ := List.mem_map.mp member
    exact ⟨List.mem_map_of_mem listed, List.mem_singleton.mp known⟩
  · rintro ⟨known, rfl⟩
    obtain ⟨entry, listed, rfl⟩ := List.mem_map.mp known
    exact ⟨_, List.mem_map_of_mem listed, rfl, List.mem_cons_self⟩

/-- Keys that are free stay as they are where nothing is embedded. -/
theorem Emits.parted_plain {specs : List (String × NodeSpec)} {parent : Option String}
    {taken taken' : List String} {emitted : Emitted}
    (run : Emits "" parent taken specs emitted taken')
    (closed : ∀ entry ∈ specs, entry.2.embedded? = none) (keyed : (Entries.names specs).Nodup)
    (free : ∀ key ∈ Entries.names specs, key ∉ taken) :
    Parted specs parent emitted
      (specs.map fun entry => Part.plain parent entry.1 entry.1 entry.2) := by
  generalize scope : "" = within at run
  induction run with
  | nil => exact .empty _
  | @plain within key parent taken taken' spec rest others own after ih =>
      subst scope
      obtain ⟨fresh, keyed⟩ := List.nodup_cons.mp keyed
      have same : claim taken (qualify "" key) = key :=
        claim_of_not_mem (free key List.mem_cons_self)
      rw [same] at ih ⊢
      have others := ih (fun entry later => closed entry (.tail _ later)) keyed (by
        intro name later taken
        obtain rfl | old := List.mem_cons.mp taken
        · exact fresh later
        · exact free name (List.mem_cons_of_mem _ later) old) rfl
      exact others.cons_plain key key spec
  | group claimed embeds inside derived after ihInside ihAfter =>
      have nothing := closed _ List.mem_cons_self
      exact absurd (embeds.symm.trans nothing) (by simp)

/-! ## Collapsing a flow -/

section

variable {flow : Flow}

@[simp] theorem embedded?_collapsed (spec : NodeSpec) : (collapsed spec).embedded? = none := by
  rw [collapsed]
  split
  · change (if _ then none else none) = none
    exact ite_self _
  · next nothing => simpa using nothing

/-- Collapsing takes from a node what it embeds and nothing that implies transitions. -/
theorem ofNode_collapsed (key : String) (spec : NodeSpec) :
    ofNode key (collapsed spec) = ofNode key spec := by
  rw [collapsed]
  split <;> rfl

theorem entries_collapsedFlow (flow : Flow) :
    (collapsedFlow flow).entries = flow.entries.map fun entry => (entry.1, collapsed entry.2) := by
  obtain ⟨start, nodes, edges, others⟩ := flow
  cases nodes <;> rfl

theorem names_collapsedFlow (flow : Flow) :
    (collapsedFlow flow).entries.names = flow.entries.names := by
  rw [entries_collapsedFlow, Entries.names, List.map_map]
  rfl

theorem start_collapsedFlow (flow : Flow) : (collapsedFlow flow).start = flow.start := by
  obtain ⟨start, nodes, edges, others⟩ := flow
  cases nodes <;> rfl

theorem implied_collapsed (es : Entries NodeSpec) :
    implied (es.map fun entry => (entry.1, collapsed entry.2)) = implied es := by
  induction es with
  | nil => rfl
  | cons entry rest ih => rw [List.map_cons, implied, implied, ofNode_collapsed, ih]

theorem ofScope_collapsedFlow (flow : Flow) : ofScope (collapsedFlow flow) = ofScope flow := by
  have edges : (collapsedFlow flow).edges = flow.edges := by
    obtain ⟨start, nodes, edges, others⟩ := flow
    cases nodes <;> rfl
  rw [ofScope, ofScope, edges, entries_collapsedFlow, implied_collapsed]

/-! ## The quotient -/

/-- A node with the description that some entries give for its identifier. -/
def Node.restored (es : Entries NodeSpec) (n : Node) : Node :=
  { n with spec := (es.get? n.id).getD n.spec }

theorem ofFlowFlat_eq (flow : Flow) :
    ofFlowFlat flow = (ofFlow (collapsedFlow flow)).bind fun g =>
      .ok { g with nodes := g.nodes.map (Node.restored flow.entries) } := rfl

/-- The node of a key in the graph of a collapsed flow. -/
def collapsedNode (entry : String × NodeSpec) : Node where
  id := entry.1
  label := entry.1
  spec := collapsed entry.2

/-- Where the transitions of the outermost scope can be derived, the collapsed flow has a
graph with one node for each key. -/
theorem exists_ofFlow_collapsedFlow {ts : List Transition} (keyed : flow.entries.names.Nodup)
    (derived : ofScope flow = .ok ts) :
    ∃ g, ofFlow (collapsedFlow flow) = .ok g ∧
      g.nodes.map Node.bare = flow.entries.map collapsedNode ∧
      ∀ key x, Region flow.entries.names g key x ↔ key ∈ flow.entries.names ∧ x = key := by
  have closed : ∀ entry ∈ (collapsedFlow flow).entries, entry.2.embedded? = none := by
    rw [entries_collapsedFlow]
    intro entry member
    obtain ⟨source, -, rfl⟩ := List.mem_map.mp member
    exact embedded?_collapsed source.2
  rw [← names_collapsedFlow] at keyed ⊢
  obtain ⟨emitted, taken, run⟩ : ∃ emitted taken,
      Emits "" none [] (collapsedFlow flow).entries emitted taken :=
    exists_emits fun entry member body embeds =>
      absurd (embeds.symm.trans (closed entry member)) (by simp)
  have parted := run.parted_plain closed keyed fun _ _ => List.not_mem_nil
  have expanded := expand_eq_ok_iff.mpr
    ⟨emitted, ts, run, (ofScope_collapsedFlow flow).trans derived, rfl⟩
  obtain ⟨g, made, like⟩ := exists_ofFlow expanded
  refine ⟨g, made, like.nodes.trans ?_, ?_⟩
  · change emitted.nodes.map Node.bare = _
    rw [parted.nodes, entries_collapsedFlow]
    induction flow.entries with
    | nil => rfl
    | cons entry rest ih => exact congrArg (collapsedNode entry :: ·) ih
  · intro key x
    rw [like.region_iff, parted.region_iff run.nodup_ids, exists_part_plain]

/-- One view of a flow shows the regions of another one as single nodes. -/
structure IsQuotient (flow : Flow) (flat g : Graph) : Prop where
  /-- The outermost nodes of the full view are those of the keys, in order. -/
  roots : List.Forall₂ EmittedFor flow.entries g.roots
  /-- Each key is a plain node of its own, in order, with all that is known about it. -/
  nodes : flat.nodes.map (fun n => (n.id, n.isGroup, n.parent, n.spec)) =
    flow.entries.map fun entry => (entry.1, false, none, entry.2)
  /-- No node of the collapsed view is looked up in vain. -/
  known : ∀ n ∈ flat.nodes, flow.entries.get? n.id = some n.spec
  edges : ∀ a b label, a ≠ b →
    ((∃ e ∈ flat.edges, e.source = a ∧ e.target = b ∧ e.label = label) ↔
      ∃ e ∈ g.edges, e.label = label ∧ Region flow.entries.names g a e.source ∧
        Region flow.entries.names g b e.target)
  exits : ∀ key, key ∈ flat.exits ↔ ∃ x ∈ g.exits, Region flow.entries.names g key x
  entry : ∀ key, flat.entry = some key ↔
    ∃ x, g.entry = some x ∧ Region flow.entries.names g key x

/-- The nodes of the collapsed view get back what collapsing took from them. -/
theorem map_restored {nodes : List Node} (keyed : flow.entries.names.Nodup)
    (bare : nodes.map Node.bare = flow.entries.map collapsedNode) :
    (nodes.map (Node.restored flow.entries)).map
        (fun n => (n.id, n.isGroup, n.parent, n.spec)) =
      flow.entries.map fun entry => (entry.1, false, none, entry.2) := by
  have through : (nodes.map (Node.restored flow.entries)).map
        (fun n => (n.id, n.isGroup, n.parent, n.spec)) =
      ((nodes.map Node.bare).map (Node.restored flow.entries)).map
        (fun n => (n.id, n.isGroup, n.parent, n.spec)) := by
    simp only [List.map_map]
    rfl
  rw [through, bare, List.map_map, List.map_map]
  apply List.map_congr_left
  intro entry member
  simp [collapsedNode, Node.restored, Entries.get?_of_mem keyed member]

/-! ### Regions of one node -/

section

variable {keys : List String} {g : Graph} (coherent : g.IsCoherent) (ids : g.ids = keys)
variable (region : ∀ key x, Region keys g key x ↔ key ∈ keys ∧ x = key)
include coherent ids region

/-- Ends of edges are identifiers, and these are the keys. -/
theorem edge_iff_of_single {a b : String} {label : Option String} :
    (∃ e ∈ g.edges, e.source = a ∧ e.target = b ∧ e.label = label) ↔
      ∃ e ∈ g.edges, e.label = label ∧ Region keys g a e.source ∧ Region keys g b e.target := by
  simp only [region]
  constructor
  · rintro ⟨e, member, rfl, rfl, rfl⟩
    obtain ⟨source, target⟩ := coherent.ends_mem _ (mem_links_of_mem member)
    exact ⟨e, member, rfl, ⟨ids ▸ source, rfl⟩, ids ▸ target, rfl⟩
  · rintro ⟨e, member, rfl, ⟨-, source⟩, -, target⟩
    exact ⟨e, member, source, target, rfl⟩

theorem exit_iff_of_single {key : String} :
    key ∈ g.exits ↔ ∃ x ∈ g.exits, Region keys g key x := by
  simp only [region]
  constructor
  · exact fun way => ⟨key, way, ids ▸ coherent.exit_mem way, rfl⟩
  · rintro ⟨x, way, -, rfl⟩
    exact way

theorem entry_iff_of_single {key : String} :
    g.entry = some key ↔ ∃ x, g.entry = some x ∧ Region keys g key x := by
  simp only [region]
  constructor
  · exact fun way => ⟨key, way, ids ▸ coherent.entry_mem key (Option.mem_toList.mpr way), rfl⟩
  · rintro ⟨x, way, -, rfl⟩
    exact way

end

/-- Wherever the full view of a flow exists, the collapsed one does and is its quotient. -/
theorem ofFlowFlat_isQuotient {g : Graph} (keyed : flow.entries.names.Nodup)
    (h : ofFlow flow = .ok g) :
    ∃ flat, ofFlowFlat flow = .ok flat ∧ IsQuotient flow flat g := by
  obtain ⟨ts, derived, full⟩ := shows_of_ofFlow keyed h
  obtain ⟨g', made, bare, region⟩ := exists_ofFlow_collapsedFlow keyed derived
  obtain ⟨ts', derived', single⟩ := shows_of_ofFlow (names_collapsedFlow flow ▸ keyed) made
  rw [ofScope_collapsedFlow] at derived'
  obtain rfl := Except.ok.inj (derived.symm.trans derived')
  rw [names_collapsedFlow, start_collapsedFlow] at single
  have nodes := map_restored keyed bare
  have coherent := isCoherent_of_ofFlow made
  have ids : g'.ids = flow.entries.names := by
    have names : (g'.nodes.map Node.bare).map Node.id = g'.ids := List.map_map
    rw [← names, bare, List.map_map]
    rfl
  refine ⟨_, (ofFlowFlat_eq flow).trans (by rw [made]; rfl), emittedFor_roots_of_ofFlow h, nodes,
    ?_, ?_, ?_, ?_⟩
  · intro n member
    have listed : (n.id, n.isGroup, n.parent, n.spec) ∈
        flow.entries.map fun entry => (entry.1, false, none, entry.2) :=
      nodes ▸ List.mem_map_of_mem member
    obtain ⟨⟨key, spec⟩, held, same⟩ := List.mem_map.mp listed
    obtain ⟨rfl, -, -, rfl⟩ := by simpa only [Prod.mk.injEq] using same
    exact Entries.get?_of_mem keyed held
  · intro a b label other
    rw [full.edges a b label other, ← single.edges a b label other]
    exact edge_iff_of_single coherent ids region
  · intro key
    rw [full.exits key, ← single.exits key]
    exact exit_iff_of_single coherent ids region
  · intro key
    rw [full.entry key, ← single.entry key]
    exact entry_iff_of_single coherent ids region

/-- The full view names the key `review_draft` otherwise and repeats the review from both
ends of its inner group. -/
theorem ofFlowFlat_isQuotient_reviewing :
    reviewing.entries.names.Nodup ∧ ∃ g flat, ofFlow reviewing = .ok g ∧
      ofFlowFlat reviewing = .ok flat ∧ flat.ids = ["fetch", "review", "review_draft"] ∧
      g.roots.map Node.id = ["fetch", "review", "review_draft_2"] ∧
      IsQuotient reviewing flat g := by
  obtain ⟨flat, made, quotient⟩ :=
    ofFlowFlat_isQuotient (show reviewing.entries.names.Nodup by decide) rfl
  refine ⟨by decide, _, flat, rfl, made, ?_, rfl, quotient⟩
  obtain rfl := Except.ok.inj made
  rfl

end

end FlowDiagram.Graph
