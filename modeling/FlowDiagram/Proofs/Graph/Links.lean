import FlowDiagram.Proofs.Graph.Emission
import FlowDiagram.Proofs.Lists
import Mathlib.Data.List.Flatten
/-!
# Links and ports of what is emitted

An edge is an identifier and a link, and a scope around it renames the edge but keeps the
link. Statements about what edges join are therefore made on links, and those about ways
out on the ports that the nodes of a scope leave open.

The equations here say what each operation of the expansion does to links and ports. What
connecting a scope adds is `mem_links_connect`: for each transition that is attached, one
link from each way out of its source to the way into its target.
-/

namespace FlowDiagram.Graph

open Definition Transition

/-- The ends and the label of an edge. -/
def Edge.link (edge : Edge) : Link := ⟨edge.source, edge.target, edge.label⟩

@[simp] theorem link_edge (l : Link) : l.edge.link = l := rfl

/-- The links of a graph, edge by edge. -/
def links (g : Graph) : List Link := g.edges.map Edge.link

theorem mem_links_of_mem {g : Graph} {e : Edge} (member : e ∈ g.edges) : e.link ∈ g.links :=
  List.mem_map_of_mem member

theorem mem_links_iff {g : Graph} {l : Link} :
    l ∈ g.links ↔
      ∃ e ∈ g.edges, e.source = l.source ∧ e.target = l.target ∧ e.label = l.label := by
  obtain ⟨source, target, label⟩ := l
  simp only [links, List.mem_map, Edge.link, Link.mk.injEq]

/-! ## Emitted parts -/

namespace Emitted

/-- The links of the emitted edges. -/
def links (emitted : Emitted) : List Link := emitted.edges.map Edge.link

/-- All ways out of the nodes of a scope, before its transitions use them. -/
def exits (emitted : Emitted) : List String := emitted.ports.flatMap (·.2.exits)

variable {emitted a b : Emitted}

theorem mem_exits {x : String} :
    x ∈ emitted.exits ↔ ∃ key p, (key, p) ∈ emitted.ports ∧ x ∈ p.exits := by
  simp [exits]

@[simp] theorem links_empty : links {} = [] := rfl

@[simp] theorem exits_empty : exits {} = [] := rfl

@[simp] theorem nodes_append (a b : Emitted) : (a.append b).nodes = a.nodes ++ b.nodes := rfl

@[simp] theorem links_append (a b : Emitted) : (a.append b).links = a.links ++ b.links :=
  List.map_append

@[simp] theorem ports_append (a b : Emitted) : (a.append b).ports = a.ports ++ b.ports := rfl

@[simp] theorem exits_append (a b : Emitted) : (a.append b).exits = a.exits ++ b.exits :=
  List.flatMap_append

section

variable (parent : Option String) (id key : String) (spec : NodeSpec) (inner : Graph)

@[simp] theorem links_plainNode : (plainNode parent id key spec).links = [] := rfl

@[simp] theorem exits_plainNode : (plainNode parent id key spec).exits = [id] := rfl

@[simp] theorem links_group : (group parent id key spec inner).links = inner.links := rfl

@[simp] theorem exits_group :
    (group parent id key spec inner).exits = if inner.exits = [] then [id] else inner.exits := by
  cases h : inner.exits <;> simp [exits, group, h]

/-- A group has one port, which is entered where its scope is, and left where the group is. -/
theorem port_of_mem_group {key' : String} {p : Ports}
    (port : (key', p) ∈ (group parent id key spec inner).ports) :
    p.entry = (nonEmpty inner.entry).getD id ∧
      p.exits = (group parent id key spec inner).exits := by
  obtain ⟨-, rfl⟩ := Prod.mk.inj (List.mem_singleton.mp port)
  exact ⟨rfl, (List.flatMap_singleton _ _).symm⟩

end

end Emitted

/-! ## Ports of a scope -/

namespace Emits

variable {within : String} {parent : Option String} {taken taken' : List String}
variable {specs : List (String × NodeSpec)} {emitted : Emitted}

/-- The ports of a scope stand under its keys. -/
theorem names_ports (run : Emits within parent taken specs emitted taken') :
    emitted.ports.names = Entries.names specs := by
  induction run with
  | nil => rfl
  | plain closed after ih => exact congrArg (_ :: ·) ih
  | group claimed embeds inside derived after ihInside ihAfter => exact congrArg (_ :: ·) ihAfter

/-- Every key of a scope has ports. -/
theorem exists_port (run : Emits within parent taken specs emitted taken')
    {entry : String × NodeSpec} (listed : entry ∈ specs) :
    ∃ p, emitted.ports.get? entry.1 = some p := by
  have known : entry.1 ∈ emitted.ports.names := run.names_ports ▸ List.mem_map_of_mem listed
  exact exists_lookup_of_mem_keys known

end Emits

/-! ## Attached transitions -/

variable {ports : Entries Ports} {t : Transition} {ts : List Transition} {l : Link}

theorem attached?_eq_some {source target : Ports} (h : attached? ports t = some (source, target)) :
    ∃ key key', t.source = some key ∧ t.target = some key' ∧
      (key, source) ∈ ports ∧ (key', target) ∈ ports ∧ ports.get? key = some source := by
  rw [attached?] at h
  split at h
  · next source' target' from_source to_target =>
      cases h
      obtain ⟨key, named, found⟩ := Option.bind_eq_some_iff.mp from_source
      obtain ⟨key', named', found'⟩ := Option.bind_eq_some_iff.mp to_target
      exact ⟨key, key', named, named', Entries.mem_of_get? found, Entries.mem_of_get? found',
        found⟩
  · contradiction

theorem mem_linksOf :
    l ∈ linksOf ports t ↔ ∃ source target, attached? ports t = some (source, target) ∧
      l.source ∈ source.exits ∧ l.target = target.entry ∧ l.label = t.action := by
  rw [linksOf]
  split
  · next source target attached =>
      simp only [List.mem_map, attached, Option.some.injEq, Prod.mk.injEq]
      constructor
      · rintro ⟨exit, way, rfl⟩
        exact ⟨source, target, ⟨rfl, rfl⟩, way, rfl, rfl⟩
      · rintro ⟨_, _, ⟨rfl, rfl⟩, way, enters, labelled⟩
        exact ⟨l.source, way, by rw [← enters, ← labelled]⟩
  · next dangling => simp [dangling]

theorem leaves_eq_true {key : String} :
    leaves ports key t = true ↔ t.source = some key ∧ ∃ ends, attached? ports t = some ends := by
  simp [leaves, Option.isSome_iff_exists]

/-! ## Connecting a scope -/

theorem links_scopeEdges (ports : Entries Ports) (ts : List Transition) :
    (scopeEdges ports ts).map Edge.link = (ts.flatMap (linksOf ports)).eraseDups := by
  rw [scopeEdges, List.map_map]
  exact List.map_id _

theorem nodup_links_scopeEdges (ports : Entries Ports) (ts : List Transition) :
    ((scopeEdges ports ts).map Edge.link).Nodup := by
  rw [links_scopeEdges]
  exact nodup_eraseDups _

theorem mem_links_scopeEdges :
    l ∈ (scopeEdges ports ts).map Edge.link ↔ ∃ t ∈ ts, l ∈ linksOf ports t := by
  rw [links_scopeEdges, List.mem_eraseDups, List.mem_flatMap]

/-- Identified edges keep their links. -/
theorem links_identified (edges : List Edge) :
    (identified edges).map Edge.link = edges.map Edge.link := by
  have same : ∀ ids : List String, edges.length = ids.length →
      (List.zipWith (fun (e : Edge) id => { e with id }) edges ids).map Edge.link =
        edges.map Edge.link := by
    induction edges with
    | nil => exact fun ids _ => rfl
    | cons e rest ih =>
        intro ids length
        cases ids with
        | nil => contradiction
        | cons id ids =>
            exact congrArg (e.link :: ·) (ih ids (Nat.succ.inj length))
  exact same _ (by simp)

theorem ids_identified (edges : List Edge) :
    (identified edges).map Edge.id = claimAll [] (edges.map Edge.id) := by
  have same : ∀ ids : List String, edges.length = ids.length →
      (List.zipWith (fun (e : Edge) id => { e with id }) edges ids).map Edge.id = ids := by
    induction edges with
    | nil =>
        intro ids length
        exact (List.eq_nil_of_length_eq_zero length.symm).symm
    | cons e rest ih =>
        intro ids length
        cases ids with
        | nil => contradiction
        | cons id ids => exact congrArg (id :: ·) (ih ids (Nat.succ.inj length))
  exact same _ (by simp)

section

variable (emitted : Emitted) (start : Option String)

theorem links_connect (ts : List Transition) :
    (connect emitted start ts).links =
      emitted.links ++ (scopeEdges emitted.ports ts).map Edge.link := by
  rw [links, connect, links_identified, List.map_append]
  rfl

theorem mem_links_connect :
    l ∈ (connect emitted start ts).links ↔
      l ∈ emitted.links ∨ ∃ t ∈ ts, l ∈ linksOf emitted.ports t := by
  rw [links_connect, List.mem_append, mem_links_scopeEdges]

theorem mem_exits_connect {x : String} :
    x ∈ (connect emitted start ts).exits ↔
      ∃ key p, (key, p) ∈ emitted.ports ∧ x ∈ p.exits ∧
        ∀ t ∈ ts, leaves emitted.ports key t = false := by
  simp only [connect, exitsOf, List.mem_flatMap, Prod.exists]
  constructor
  · rintro ⟨key, p, member, way⟩
    split at way
    · exact absurd way List.not_mem_nil
    · next unused => exact ⟨key, p, member, way, by simpa using unused⟩
  · rintro ⟨key, p, member, way, unused⟩
    refine ⟨key, p, member, ?_⟩
    rw [if_neg (by simpa using unused)]
    exact way

/-- The ways out of a scope are among those of its nodes, in the same order. -/
theorem exits_connect_sublist (ts : List Transition) :
    (connect emitted start ts).exits.Sublist emitted.exits := by
  refine List.Sublist.flatMap_right emitted.ports ?_
  rintro ⟨key, p⟩ -
  change (if ts.any (leaves emitted.ports key) then [] else p.exits).Sublist p.exits
  split
  · exact List.nil_sublist _
  · exact List.Sublist.refl _

theorem entry_connect {x : String} (h : (connect emitted start ts).entry = some x) :
    ∃ key p, (key, p) ∈ emitted.ports ∧ p.entry = x := by
  change entryOf emitted.ports start = some x at h
  obtain ⟨p, found, rfl⟩ := Option.map_eq_some_iff.mp h
  obtain ⟨key, -, found⟩ := Option.bind_eq_some_iff.mp found
  exact ⟨key, p, Entries.mem_of_get? found, rfl⟩

end

end FlowDiagram.Graph
