import FlowDiagram.Proofs.Graph.Coherence
/-!
# Ways out of an expanded flow

Each scope finds its ways out by keys: those of the nodes that no attached transition
leaves. Seen from the whole graph they are the sinks. A plain node stays a way out through
all enclosing scopes until a link starts at it, and from then on it is none any more.

A group takes part only where its own scope has no way out. Otherwise it hands out what its
scope hands out and is itself neither a way out nor the source of a link.
-/

namespace FlowDiagram.Graph

open Definition Transition

section

variable {emitted a b : Emitted} {parent : Option String} {id key x : String} {spec : NodeSpec}
variable {inner : Graph} {start : Option String} {ts : List Transition}

/-! ## Plain nodes -/

/-- Every plain node is a way out or a link leaves it. -/
def LeftOrOpen (nodes : List Node) (links : List Link) (exits : List String) : Prop :=
  ∀ n ∈ nodes, n.isGroup = false → n.id ∉ exits → ∃ l ∈ links, l.source = n.id

/-- A way out of a node is handed outward, or the transitions of the scope use it. -/
theorem exists_link_of_not_mem_exits_connect (distinct : emitted.ports.names.Nodup)
    (way : x ∈ emitted.exits) (kept : x ∉ (connect emitted start ts).exits) :
    ∃ l ∈ (connect emitted start ts).links, l.source = x := by
  obtain ⟨key, p, port, way⟩ := Emitted.mem_exits.mp way
  by_cases unused : ∀ t ∈ ts, leaves emitted.ports key t = false
  · exact absurd ((mem_exits_connect emitted start).mpr ⟨key, p, port, way, unused⟩) kept
  · push Not at unused
    obtain ⟨t, used, leaving⟩ := unused
    obtain ⟨named, ⟨source, target⟩, attached⟩ :=
      leaves_eq_true.mp (Bool.ne_false_iff.mp leaving)
    -- The key finds the port itself, not another one of the same name.
    obtain ⟨key', -, named', -, -, -, found⟩ := attached?_eq_some attached
    obtain rfl : key = key' := Option.some.inj (named.symm.trans named')
    obtain rfl : p = source :=
      Option.some.inj ((Entries.get?_of_mem distinct port).symm.trans found)
    refine ⟨⟨x, target.entry, t.action⟩, (mem_links_connect emitted start).mpr (.inr ?_), rfl⟩
    exact ⟨t, used, mem_linksOf.mpr ⟨p, target, attached, way, rfl, rfl⟩⟩

theorem LeftOrOpen.connect (h : LeftOrOpen emitted.nodes emitted.links emitted.exits)
    (distinct : emitted.ports.names.Nodup) (start : Option String) (ts : List Transition) :
    let g := connect emitted start ts
    LeftOrOpen g.nodes g.links g.exits := by
  intro g n member isPlain kept
  by_cases way : n.id ∈ emitted.exits
  · exact exists_link_of_not_mem_exits_connect distinct way kept
  · obtain ⟨l, old, source⟩ := h n member isPlain way
    exact ⟨l, (mem_links_connect emitted start).mpr (.inl old), source⟩

theorem LeftOrOpen.group (h : LeftOrOpen inner.nodes inner.links inner.exits)
    (parent : Option String) (id key : String) (spec : NodeSpec) :
    let e := group parent id key spec inner
    LeftOrOpen e.nodes e.links e.exits := by
  intro e n member isPlain kept
  obtain rfl | nested := List.mem_cons.mp member
  · contradiction
  · refine h n nested isPlain fun way => kept ?_
    rw [Emitted.exits_group, if_neg (List.ne_nil_of_mem way)]
    exact way

theorem LeftOrOpen.append (ha : LeftOrOpen a.nodes a.links a.exits)
    (hb : LeftOrOpen b.nodes b.links b.exits) :
    LeftOrOpen (a.append b).nodes (a.append b).links (a.append b).exits := by
  intro n member isPlain kept
  rw [Emitted.exits_append, List.mem_append, not_or] at kept
  rw [Emitted.links_append]
  obtain left | right := List.mem_append.mp member
  · obtain ⟨l, old, source⟩ := ha n left isPlain kept.1
    exact ⟨l, List.mem_append_left _ old, source⟩
  · obtain ⟨l, old, source⟩ := hb n right isPlain kept.2
    exact ⟨l, List.mem_append_right _ old, source⟩

/-! ## Groups -/

/-- An identifier is neither a way out nor the source of a link. -/
def Passive (links : List Link) (exits : List String) (x : String) : Prop :=
  x ∉ exits ∧ ∀ l ∈ links, l.source ≠ x

/-- What does not occur at all is passive. -/
theorem Coherent.passive {ids links exits entries} (h : Coherent ids links exits entries)
    (outside : x ∉ ids) : Passive links exits x :=
  ⟨fun way => outside (h.exit_mem way), fun l member same =>
    outside (same ▸ (h.ends_mem l member).1)⟩

theorem passive_plainNode (other : x ≠ id) (parent : Option String) (key : String)
    (spec : NodeSpec) :
    Passive (plainNode parent id key spec).links (plainNode parent id key spec).exits x :=
  ⟨fun way => other (List.mem_singleton.mp way), fun _ member => absurd member List.not_mem_nil⟩

theorem Passive.connect (h : Passive emitted.links emitted.exits x) (start : Option String)
    (ts : List Transition) :
    Passive (connect emitted start ts).links (connect emitted start ts).exits x := by
  refine ⟨fun way => h.1 ((exits_connect_sublist emitted start ts).subset way), ?_⟩
  intro l member same
  obtain old | ⟨t, used, new⟩ := (mem_links_connect emitted start).mp member
  · exact h.2 l old same
  · obtain ⟨key, p, port, way, -⟩ := source_of_mem_linksOf used new
    exact h.1 (Emitted.mem_exits.mpr ⟨key, p, port, same ▸ way⟩)

theorem Passive.group (h : Passive inner.links inner.exits x) (other : x ≠ id)
    (parent : Option String) (key : String) (spec : NodeSpec) :
    Passive (group parent id key spec inner).links (group parent id key spec inner).exits x := by
  refine ⟨?_, h.2⟩
  rw [Emitted.exits_group]
  split
  · exact fun same => other (List.mem_singleton.mp same)
  · exact h.1

theorem Passive.append (ha : Passive a.links a.exits x) (hb : Passive b.links b.exits x) :
    Passive (a.append b).links (a.append b).exits x := by
  rw [Emitted.links_append, Emitted.exits_append]
  refine ⟨fun way => (List.mem_append.mp way).elim ha.1 hb.1, fun l member => ?_⟩
  exact (List.mem_append.mp member).elim (ha.2 l) (hb.2 l)

/-- A group is passive where its scope has a way out. -/
theorem IsCoherent.passive_group (h : inner.IsCoherent) (fresh : id ∉ inner.ids)
    (leads : inner.exits ≠ []) (parent : Option String) (key : String) (spec : NodeSpec) :
    let e := Graph.group parent id key spec inner
    Passive e.links e.exits id := by
  intro e
  rw [Emitted.exits_group, if_neg leads]
  exact h.passive fresh

/-- Some nodes hold a group whose scope was expanded when exactly the nodes before it and
the group itself were taken in addition. -/
def BodyExpands (taken : List String) (nodes : List Node) (n : Node) (inner : Graph) : Prop :=
  ∃ before after body last, nodes = before ++ n :: after ∧ n.spec.embedded? = some body ∧
    expand n.id (some n.id) (n.id :: (before.map Node.id).reverse ++ taken) body =
      .ok (inner, last)

namespace BodyExpands

variable {taken between : List String} {nodes : List Node} {n : Node}

theorem after (h : BodyExpands between nodes n inner) (front : List Node)
    (took : between = (front.map Node.id).reverse ++ taken) :
    BodyExpands taken (front ++ nodes) n inner := by
  subst took
  obtain ⟨before, rest, body, last, split, embeds, expanded⟩ := h
  refine ⟨front ++ before, rest, body, last, ?_, embeds, ?_⟩
  · rw [split, List.append_assoc]
  · simpa using expanded

theorem before (h : BodyExpands taken nodes n inner) (back : List Node) :
    BodyExpands taken (nodes ++ back) n inner := by
  obtain ⟨before, rest, body, last, split, embeds, expanded⟩ := h
  refine ⟨before, rest ++ back, body, last, ?_, embeds, expanded⟩
  rw [split, List.append_assoc, List.cons_append]

end BodyExpands

end

/-! ## Whole expansions -/

variable {within : String} {parent : Option String} {taken taken' : List String}

namespace Emits

variable {specs : List (String × NodeSpec)} {emitted : Emitted}

theorem leftOrOpen (run : Emits within parent taken specs emitted taken')
    (keyed : ∀ entry ∈ specs, ∀ body, entry.2.embedded? = some body → Flow.Keyed body) :
    LeftOrOpen emitted.nodes emitted.links emitted.exits := by
  induction run with
  | nil => exact fun n member => absurd member List.not_mem_nil
  | plain closed after ih =>
      refine LeftOrOpen.append ?_ (ih fun entry later => keyed entry (.tail _ later))
      intro n member isPlain kept
      obtain rfl := List.mem_singleton.mp member
      exact absurd List.mem_cons_self kept
  | group claimed embeds inside derived after ihInside ihAfter =>
      have bodyKeyed := keyed _ List.mem_cons_self _ embeds
      have nested := ihInside fun entry member body' => bodyKeyed.embedded member
      have distinct := inside.names_ports ▸ bodyKeyed.distinct
      refine LeftOrOpen.append ?_ (ihAfter fun entry later => keyed entry (.tail _ later))
      exact (nested.connect distinct _ _).group _ _ _ _

/-- A group whose scope has a way out leaves all ways out to its scope. -/
theorem group_passive (run : Emits within parent taken specs emitted taken') :
    ∀ n ∈ emitted.nodes, n.isGroup = true → ∃ inner, BodyExpands taken emitted.nodes n inner ∧
      (inner.exits ≠ [] → Passive emitted.links emitted.exits n.id) := by
  induction run with
  | nil => exact fun n member => absurd member List.not_mem_nil
  | @plain within key parent taken taken' spec rest others closed after ih =>
      intro n member isGroup
      obtain rfl | later := List.mem_cons.mp member
      · contradiction
      obtain ⟨inner, body, passive⟩ := ih n later isGroup
      refine ⟨inner, body.after (plainNode parent _ key spec).nodes rfl, fun leads => ?_⟩
      refine (passive_plainNode (fun same => ?_) _ _ _).append (passive leads)
      exact after.head_not_mem (same ▸ List.mem_map_of_mem later)
  | @group within id key parent taken between taken' spec body inner ts rest others claimed embeds
      inside derived after ihInside ihAfter =>
      have fresh := inside.head_not_mem
      have apart := inside.disjoint_after after
      have coherent := inside.coherent.connect body.start.value? ts
      intro n member isGroup
      obtain here | later := List.mem_append.mp member
      · obtain rfl | nested := List.mem_cons.mp here
        · have expanded := expand_eq_ok_iff.mpr ⟨inner, ts, inside, derived, rfl⟩
          refine ⟨_, ⟨[], _, body, between, rfl, embeds, expanded⟩, fun leads => ?_⟩
          have own := coherent.passive_group fresh leads parent key spec
          exact own.append (after.coherent.passive (apart List.mem_cons_self))
        · have known : n.id ∈ inner.ids := List.mem_map_of_mem nested
          obtain ⟨nested', expands, passive⟩ := ihInside n nested isGroup
          refine ⟨nested', (expands.after [_] rfl).before others.nodes, fun leads => ?_⟩
          have other : n.id ≠ id := fun same => fresh (same ▸ known)
          refine (((passive leads).connect _ _).group other _ _ _).append ?_
          exact after.coherent.passive (apart (List.mem_cons_of_mem _ known))
      · obtain ⟨nested', expands, passive⟩ := ihAfter n later isGroup
        have took : between = (id :: inner.ids).reverse ++ taken := by simp [inside.taken_eq]
        refine ⟨nested', expands.after (_ :: inner.nodes) took, fun leads => ?_⟩
        refine Passive.append ?_ (passive leads)
        refine (coherent.group fresh _ _ _).passive fun here => ?_
        exact apart here (List.mem_map_of_mem later)

end Emits

variable {flow : Flow} {g : Graph}

/-- The ways out of a flow are its sinks among the plain nodes, in the order of emission.
No edge starts at a way out, and a group is a way out or the source of an edge only if its
own scope has no way out. -/
theorem expand_exits (keyed : Flow.Keyed flow)
    (h : expand within parent taken flow = .ok (g, taken')) :
    (∀ n ∈ g.nodes, n.isGroup = false → (n.id ∈ g.exits ↔ ∀ e ∈ g.edges, e.source ≠ n.id)) ∧
      (∀ x ∈ g.exits, ∀ e ∈ g.edges, e.source ≠ x) ∧
      g.exits.Nodup ∧ g.exits.Sublist g.ids ∧
      ∀ n ∈ g.nodes, n.isGroup = true → ∃ inner, BodyExpands taken g.nodes n inner ∧
        ((n.id ∈ g.exits ∨ ∃ e ∈ g.edges, e.source = n.id) → inner.exits = []) := by
  have coherent := isCoherent_of_expand h
  have sink : ∀ x ∈ g.exits, ∀ e ∈ g.edges, e.source ≠ x := by
    rintro _ way e member rfl
    exact coherent.source_not_exit e.link (mem_links_of_mem member) way
  obtain ⟨emitted, ts, run, -, rfl⟩ := expand_eq_ok_iff.mp h
  refine ⟨?_, sink, coherent.exits_distinct, coherent.exits_sublist, ?_⟩
  · intro n member isPlain
    refine ⟨fun way => sink n.id way, fun unused => ?_⟩
    by_contra kept
    have distinct := run.names_ports ▸ keyed.distinct
    have before := run.leftOrOpen fun entry held body => keyed.embedded held
    have after := before.connect distinct flow.start.value? ts
    obtain ⟨l, added, source⟩ := after n member isPlain kept
    obtain ⟨e, listed, same, -⟩ := mem_links_iff.mp added
    exact unused e listed (same.trans source)
  · intro n member isGroup
    obtain ⟨inner, body, passive⟩ := run.group_passive n member isGroup
    refine ⟨inner, body, fun active => ?_⟩
    by_contra leads
    obtain ⟨closed, unused⟩ := (passive leads).connect flow.start.value? ts
    obtain way | ⟨e, listed, same⟩ := active
    · exact closed way
    · exact unused e.link (mem_links_of_mem listed) same

/-- The repeated review uses up the ends of its inner group, which has no start. -/
theorem expand_exits_reviewing :
    ∃ g taken', Flow.Keyed reviewing ∧ expand "" none [] reviewing = .ok (g, taken') ∧
      g.exits = ["review_draft_2"] ∧
      (∀ n ∈ g.nodes, n.isGroup = false →
        (n.id ∈ g.exits ↔ ∀ e ∈ g.edges, e.source ≠ n.id)) ∧
      (∀ x ∈ g.exits, ∀ e ∈ g.edges, e.source ≠ x) ∧
      g.exits.Nodup ∧ g.exits.Sublist g.ids ∧
      ∀ n ∈ g.nodes, n.isGroup = true → ∃ inner, BodyExpands [] g.nodes n inner ∧
        ((n.id ∈ g.exits ∨ ∃ e ∈ g.edges, e.source = n.id) → inner.exits = []) := by
  refine ⟨_, _, keyed_reviewing, rfl, rfl, ?_⟩
  exact expand_exits keyed_reviewing (show expand "" none [] reviewing = .ok _ from rfl)

end FlowDiagram.Graph
