import FlowDiagram.Proofs.Graph.Links
import Mathlib.Data.List.Pairwise
/-!
# Coherent graphs

A scope fans its transitions out into nodes that inner scopes emitted, and each scope
leaves out repeated links only among its own. That the whole graph still has every link
once rests on one fact that `Coherent` carries through the recursion: a way out that a
scope hands outward is the source of no link inside it. Links of an outer scope start at
ways out, so they are new.

`expand_edges` is the law for all scopes together.
-/

namespace FlowDiagram.Graph

open Definition Transition

/-- Where a list is put together without repetition, each element comes from one place. -/
theorem eq_of_nodup_flatMap {α β : Type} {list : List α} {f : α → List β}
    (distinct : (list.flatMap f).Nodup) {a b : α} (ha : a ∈ list) (hb : b ∈ list) {x : β}
    (xa : x ∈ f a) (xb : x ∈ f b) : a = b := by
  have apart := (List.nodup_flatMap.mp distinct).2
  by_contra different
  have symmetric : Std.Symm (Function.onFun List.Disjoint f) :=
    ⟨fun _ _ disjoint _ there here => disjoint here there⟩
  exact apart.forall ha hb different xa xb

/-- How links, ways out and ways in lie over the identifiers of some nodes. -/
structure Coherent (ids : List String) (links : List Link) (exits entries : List String) :
    Prop where
  distinct : ids.Nodup
  exits_sublist : exits.Sublist ids
  entry_mem : ∀ x ∈ entries, x ∈ ids
  ends_mem : ∀ l ∈ links, l.source ∈ ids ∧ l.target ∈ ids
  source_not_exit : ∀ l ∈ links, l.source ∉ exits
  links_distinct : links.Nodup

namespace Coherent

variable {ids ids' exits exits' entries entries' : List String} {links links' : List Link}

theorem exits_distinct (h : Coherent ids links exits entries) : exits.Nodup :=
  h.exits_sublist.nodup h.distinct

theorem exit_mem (h : Coherent ids links exits entries) {x : String} (way : x ∈ exits) :
    x ∈ ids :=
  h.exits_sublist.subset way

theorem empty : Coherent [] [] [] [] where
  distinct := List.nodup_nil
  exits_sublist := List.Sublist.refl []
  entry_mem := fun _ member => member
  ends_mem := fun _ member => absurd member List.not_mem_nil
  source_not_exit := fun _ _ => List.not_mem_nil
  links_distinct := List.nodup_nil

/-- Parts over different identifiers stand side by side. -/
theorem append (a : Coherent ids links exits entries) (b : Coherent ids' links' exits' entries')
    (apart : List.Disjoint ids ids') :
    Coherent (ids ++ ids') (links ++ links') (exits ++ exits') (entries ++ entries') where
  distinct := List.nodup_append'.mpr ⟨a.distinct, b.distinct, apart⟩
  exits_sublist := a.exits_sublist.append b.exits_sublist
  entry_mem := by
    intro x member
    obtain left | right := List.mem_append.mp member
    · exact List.mem_append_left _ (a.entry_mem x left)
    · exact List.mem_append_right _ (b.entry_mem x right)
  ends_mem := by
    intro l member
    obtain left | right := List.mem_append.mp member
    · exact (a.ends_mem l left).imp (List.mem_append_left _) (List.mem_append_left _)
    · exact (b.ends_mem l right).imp (List.mem_append_right _) (List.mem_append_right _)
  source_not_exit := by
    intro l member way
    obtain left | right := List.mem_append.mp member
    · obtain here | there := List.mem_append.mp way
      · exact a.source_not_exit l left here
      · exact apart (a.ends_mem l left).1 (b.exit_mem there)
    · obtain there | here := List.mem_append.mp way
      · exact apart (a.exit_mem there) (b.ends_mem l right).1
      · exact b.source_not_exit l right here
  links_distinct := by
    refine List.nodup_append'.mpr ⟨a.links_distinct, b.links_distinct, ?_⟩
    intro l left right
    exact apart (a.ends_mem l left).1 (b.ends_mem l right).1

end Coherent

/-! ## The operations of the expansion -/

namespace Emitted

/-- The ways into the nodes of a scope. -/
def entries (emitted : Emitted) : List String := emitted.ports.map (·.2.entry)

@[simp] theorem entries_append (a b : Emitted) :
    (a.append b).entries = a.entries ++ b.entries :=
  List.map_append

theorem mem_entries {emitted : Emitted} {x : String} :
    x ∈ emitted.entries ↔ ∃ key p, (key, p) ∈ emitted.ports ∧ p.entry = x := by
  simp [entries]

/-- What is emitted for some nodes of a scope is coherent. -/
protected abbrev Coherent (emitted : Emitted) : Prop :=
  Graph.Coherent emitted.ids emitted.links emitted.exits emitted.entries

end Emitted

/-- The graph of a scope is coherent, with at most one way in. -/
abbrev IsCoherent (g : Graph) : Prop := Coherent g.ids g.links g.exits g.entry.toList

section

variable {emitted : Emitted} {parent : Option String} {id key key' : String} {spec : NodeSpec}
variable {p p' : Ports} {inner : Graph} {ts : List Transition} {x : String}

/-- Each way out belongs to one node of the scope. -/
theorem Emitted.port_unique (distinct : emitted.exits.Nodup) (member : (key, p) ∈ emitted.ports)
    (member' : (key', p') ∈ emitted.ports) (way : x ∈ p.exits) (way' : x ∈ p'.exits) :
    key = key' ∧ p = p' :=
  Prod.mk.inj (eq_of_nodup_flatMap distinct member member' way way')

/-- A link that a scope adds starts at a way out of a node that a transition leaves. -/
theorem source_of_mem_linksOf {l : Link} {t : Transition} (used : t ∈ ts)
    (member : l ∈ linksOf emitted.ports t) :
    ∃ key p, (key, p) ∈ emitted.ports ∧ l.source ∈ p.exits ∧
      ∃ t ∈ ts, leaves emitted.ports key t = true := by
  obtain ⟨source, target, attached, way, -⟩ := mem_linksOf.mp member
  obtain ⟨key, -, named, -, port, -⟩ := attached?_eq_some attached
  exact ⟨key, source, port, way, t, used, leaves_eq_true.mpr ⟨named, _, attached⟩⟩

/-- No link that a scope adds starts at a way out that it hands outward. -/
theorem source_not_mem_exits_connect (distinct : emitted.exits.Nodup) {start : Option String}
    {l : Link} {t : Transition} (used : t ∈ ts) (member : l ∈ linksOf emitted.ports t) :
    l.source ∉ (connect emitted start ts).exits := by
  intro handed
  obtain ⟨key, p, port, way, unused⟩ := (mem_exits_connect emitted start).mp handed
  obtain ⟨key', p', port', way', t', used', leaving⟩ := source_of_mem_linksOf used member
  obtain ⟨rfl, -⟩ := Emitted.port_unique distinct port port' way way'
  rw [unused t' used'] at leaving
  contradiction

theorem coherent_plainNode (parent : Option String) (id key : String) (spec : NodeSpec) :
    (plainNode parent id key spec).Coherent where
  distinct := List.nodup_singleton id
  exits_sublist := List.Sublist.refl [id]
  entry_mem := fun _ member => member
  ends_mem := fun _ member => absurd member List.not_mem_nil
  source_not_exit := fun _ member => absurd member List.not_mem_nil
  links_distinct := List.nodup_nil

/-- The transitions of a scope keep it coherent. -/
theorem Emitted.Coherent.connect (h : emitted.Coherent) (start : Option String)
    (ts : List Transition) : (connect emitted start ts).IsCoherent where
  distinct := h.distinct
  exits_sublist := (exits_connect_sublist emitted start ts).trans h.exits_sublist
  entry_mem := by
    intro x member
    obtain ⟨key, p, port, enters⟩ := entry_connect emitted start (Option.mem_toList.mp member)
    exact h.entry_mem x (Emitted.mem_entries.mpr ⟨key, p, port, enters⟩)
  ends_mem := by
    intro l member
    obtain old | ⟨t, used, new⟩ := (mem_links_connect emitted start).mp member
    · exact h.ends_mem l old
    · obtain ⟨source, target, attached, way, enters, -⟩ := mem_linksOf.mp new
      obtain ⟨key, key', -, -, port, port', -⟩ := attached?_eq_some attached
      refine ⟨h.exit_mem (Emitted.mem_exits.mpr ⟨key, source, port, way⟩), ?_⟩
      exact h.entry_mem _ (Emitted.mem_entries.mpr ⟨key', target, port', enters.symm⟩)
  source_not_exit := by
    intro l member handed
    obtain old | ⟨t, used, new⟩ := (mem_links_connect emitted start).mp member
    · exact h.source_not_exit l old ((exits_connect_sublist emitted start ts).subset handed)
    · exact source_not_mem_exits_connect h.exits_distinct used new handed
  links_distinct := by
    rw [links_connect]
    refine List.nodup_append'.mpr ⟨h.links_distinct, nodup_links_scopeEdges _ _, ?_⟩
    intro l old new
    obtain ⟨t, used, new⟩ := mem_links_scopeEdges.mp new
    -- A new link starts at a way out of the parts, and no old one does.
    obtain ⟨key, p, port, way, -⟩ := source_of_mem_linksOf used new
    exact h.source_not_exit l old (Emitted.mem_exits.mpr ⟨key, p, port, way⟩)

/-- A group around a coherent scope is coherent under a new identifier. -/
theorem IsCoherent.group (h : inner.IsCoherent) (fresh : id ∉ inner.ids)
    (parent : Option String) (key : String) (spec : NodeSpec) :
    (group parent id key spec inner).Coherent where
  distinct := List.nodup_cons.mpr ⟨fresh, h.distinct⟩
  exits_sublist := by
    rw [Emitted.exits_group, Emitted.ids_group]
    split
    · exact List.singleton_sublist.mpr List.mem_cons_self
    · exact h.exits_sublist.cons id
  entry_mem := by
    intro x member
    obtain rfl := List.mem_singleton.mp member
    change (nonEmpty inner.entry).getD id ∈ id :: inner.ids
    cases entered : nonEmpty inner.entry with
    | none => exact List.mem_cons_self
    | some y =>
        have way := (Option.filter_eq_some_iff.mp entered).1
        exact List.mem_cons_of_mem id (h.entry_mem y (Option.mem_toList.mpr way))
  ends_mem := fun l member =>
    (h.ends_mem l member).imp (List.mem_cons_of_mem id) (List.mem_cons_of_mem id)
  source_not_exit := by
    intro l member
    rw [Emitted.exits_group]
    split
    · exact fun same => fresh (List.mem_singleton.mp same ▸ (h.ends_mem l member).1)
    · exact h.source_not_exit l member
  links_distinct := h.links_distinct

end

/-! ## Whole expansions -/

variable {within : String} {parent : Option String} {taken taken' : List String}

/-- Every pass emits what is coherent. -/
theorem Emits.coherent {specs : List (String × NodeSpec)} {emitted : Emitted}
    (run : Emits within parent taken specs emitted taken') : emitted.Coherent := by
  induction run with
  | nil => exact .empty
  | plain closed after ih =>
      rw [Emitted.Coherent, Emitted.ids_append, Emitted.links_append, Emitted.exits_append,
        Emitted.entries_append]
      have apart := List.singleton_disjoint.mpr after.head_not_mem
      exact (coherent_plainNode _ _ _ _).append ih apart
  | group claimed embeds inside derived after ihInside ihAfter =>
      rw [Emitted.Coherent, Emitted.ids_append, Emitted.links_append, Emitted.exits_append,
        Emitted.entries_append]
      refine Coherent.append ?_ ihAfter (inside.disjoint_after after)
      exact (ihInside.connect _ _).group inside.head_not_mem _ _ _

variable {flow : Flow} {g : Graph}

theorem isCoherent_of_expand (h : expand within parent taken flow = .ok (g, taken')) :
    g.IsCoherent := by
  obtain ⟨emitted, ts, run, -, rfl⟩ := expand_eq_ok_iff.mp h
  exact run.coherent.connect _ ts

theorem distinct_edge_ids_of_expand (h : expand within parent taken flow = .ok (g, taken')) :
    (g.edges.map Edge.id).Nodup := by
  obtain ⟨emitted, ts, -, -, rfl⟩ := expand_eq_ok_iff.mp h
  change ((identified _).map Edge.id).Nodup
  rw [ids_identified]
  exact nodup_claimAll _ _

/-- Over all scopes together, edges join emitted nodes, their identifiers differ, and no
two of them have the same ends and the same label. -/
theorem expand_edges (h : expand within parent taken flow = .ok (g, taken')) :
    (∀ e ∈ g.edges, e.source ∈ g.ids ∧ e.target ∈ g.ids) ∧
      (g.edges.map Edge.id).Nodup ∧
      (g.edges.map fun e => (e.source, e.target, e.label)).Nodup := by
  have coherent := isCoherent_of_expand h
  refine ⟨fun e member => coherent.ends_mem _ (mem_links_of_mem member),
    distinct_edge_ids_of_expand h, ?_⟩
  have triples : (g.edges.map fun e => (e.source, e.target, e.label)) =
      g.links.map fun l => (l.source, l.target, l.label) := by
    rw [links, List.map_map]
    rfl
  rw [triples]
  refine List.Nodup.map ?_ coherent.links_distinct
  rintro ⟨source, target, label⟩ ⟨source', target', label'⟩ same
  simpa using same

/-- The root links the open ends of the group to nodes inside and outside it. -/
theorem expand_edges_reviewing :
    ∃ g taken', expand "" none [] reviewing = .ok (g, taken') ∧
      (g.edges.map fun e => (e.source, e.target)) =
        [("review_draft", "review_check"), ("fetch", "review_draft"),
          ("review_check_pass", "review_draft"), ("review_check_fail", "review_draft"),
          ("review_check_pass", "review_draft_2"), ("review_check_fail", "review_draft_2")] ∧
      (∀ e ∈ g.edges, e.source ∈ g.ids ∧ e.target ∈ g.ids) ∧
      (g.edges.map Edge.id).Nodup ∧
      (g.edges.map fun e => (e.source, e.target, e.label)).Nodup := by
  refine ⟨_, _, rfl, rfl, ?_⟩
  exact expand_edges (show expand "" none [] reviewing = .ok _ from rfl)

end FlowDiagram.Graph
