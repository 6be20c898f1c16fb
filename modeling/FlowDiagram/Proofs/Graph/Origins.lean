import FlowDiagram.Proofs.Definition.Fields
import FlowDiagram.Proofs.Graph.Starting
/-!
# Where edges come from

An edge that leaves a plain node comes from a transition of the scope of this node, or from one
of a scope around it: a node that no transition of its scope leaves is a way out of the scope,
and the edges that leave the group start there. `exists_accounted` says both of every plain node,
at any depth, and that every transition from its key to another key of its scope has its edge.

A group takes part in the scope around it through its ports only. `Hosts` says how the links of a
nested scope lie in what the scope around it emits; from this the statement goes outwards one
group at a time.
-/

namespace FlowDiagram.Graph

open Definition Transition

/-! ## Scopes and their transitions -/

/-- A scope is the flow itself, or it is embedded at the end of a path of keys. -/
inductive ScopeAt : Flow → List String → Flow → Prop
  | root {flow : Flow} : ScopeAt flow [] flow
  | inside {flow body scope : Flow} {key : String} {spec : NodeSpec} {path : List String}
      (entry : (key, spec) ∈ flow.entries) (embeds : spec.embedded? = some body)
      (further : ScopeAt body path scope) : ScopeAt flow (key :: path) scope

theorem ScopeAt.keyed {flow scope : Flow} {path : List String} (place : ScopeAt flow path scope)
    (keyed : Flow.Keyed flow) : Flow.Keyed scope := by
  induction place with
  | root => exact keyed
  | inside entry embeds further ih => exact ih (keyed.embedded entry embeds)

theorem ScopeAt.inJson {flow scope : Flow} {path : List String} (place : ScopeAt flow path scope)
    (json : Flow.InJson flow) : Flow.InJson scope := by
  induction place with
  | root => exact json
  | inside entry embeds further ih =>
      exact ih ((json.entry entry).body _ (NodeSpec.value?_of_embedded? embeds))

/-- A scope leads from one key to another. The second one may be unknown to it. -/
def HasTransition (scope : Flow) (key target : String) (label : Option String) : Prop :=
  ∃ ts, ofScope scope = .ok ts ∧ ⟨some key, some target, label⟩ ∈ ts

/-- No transition of a scope leads from a key to a node. -/
def Stuck (scope : Flow) (key : String) : Prop :=
  ∀ target label, HasTransition scope key target label → target ∉ scope.entries.names

/-- An identifier is that of the node where a key of the scope at a path is entered. -/
def EnteredAs (specs : List (String × NodeSpec)) (ids path : List String) (scope : Flow)
    (target x : String) : Prop :=
  ∃ spec e, (target, spec) ∈ scope.entries ∧ Enters target spec e ∧ Given specs ids (e.below path) x

/-- A link comes from a transition of a scope around a path, which leaves the group on the way
to it. -/
def LedOut (flow : Flow) (ids path : List String) (l : Link) : Prop :=
  ∃ outer group further around target, path = outer ++ group :: further ∧
    ScopeAt flow outer around ∧ HasTransition around group target l.label ∧
    EnteredAs flow.entries ids outer around target l.target

/-- The links that leave a node are those of the transitions from its key. If these lead to no
node, it has the links that leave a group around it. -/
structure Accounted (flow : Flow) (ids : List String) (links : List Link) (path : List String)
    (scope : Flow) (key x : String) : Prop where
  leaves : ∀ target label, HasTransition scope key target label → target ∈ scope.entries.names →
    ∃ l ∈ links, l.source = x ∧ l.label = label ∧
      EnteredAs flow.entries ids path scope target l.target
  arises : ∀ l ∈ links, l.source = x →
    (∃ target, HasTransition scope key target l.label ∧
        EnteredAs flow.entries ids path scope target l.target) ∨
      Stuck scope key ∧ LedOut flow ids path l

section

variable {specs specs' : List (String × NodeSpec)} {ids ids' path : List String}
variable {flow body scope : Flow} {key target x : String} {spec : NodeSpec} {l : Link}
variable {ts : List Transition}

/-- What is known of a path is known further out. -/
theorem EnteredAs.shift (h : EnteredAs specs ids path scope target x) (front : List String)
    (given : ∀ e x, Given specs ids e x → Given specs' ids' (e.below front) x) :
    EnteredAs specs' ids' (front ++ path) scope target x := by
  obtain ⟨spec, e, listed, enters, place⟩ := h
  exact ⟨spec, e, listed, enters, Listed.below_below e ▸ given _ _ place⟩

theorem HasTransition.of_mem {t : Transition} (derived : ofScope scope = .ok ts) (used : t ∈ ts)
    (source : t.source = some key) (leads : t.target = some target) :
    HasTransition scope key target t.action :=
  ⟨ts, derived, by rw [← source, ← leads]; exact used⟩

end

/-! ## Ports of a scope -/

section

variable {within : String} {parent : Option String} {taken taken' : List String}
variable {specs : List (String × NodeSpec)} {emitted : Emitted} {key x : String}
variable {spec : NodeSpec} {flow body : Flow} {ts : List Transition} {l : Link} {t : Transition}

/-- What a group and the pass after it are given. -/
theorem Emits.given_group_append {id : String} {outer : Option String}
    {rest : List (String × NodeSpec)} {inner others : Emitted} {start : Option String} {e : Listed}
    (inside : Emits within parent taken body.entries inner taken')
    (embeds : spec.embedded? = some body) :
    Given ((key, spec) :: rest)
        ((Graph.group outer id key spec (connect inner start ts)).append others).ids e x ↔
      e = ⟨[key], spec⟩ ∧ x = id ∨
        (∃ e', Given body.entries inner.ids e' x ∧ e'.below [key] = e) ∨
          Given rest others.ids e x := by
  rw [Emitted.ids_append, Emitted.ids_group, ids_connect, List.cons_append]
  exact given_group embeds inside.length_ids

/-- A plain node is its own way in and out. -/
theorem Emits.exists_plain_port (run : Emits within parent taken specs emitted taken')
    (distinct : (Entries.names specs).Nodup) (entry : (key, spec) ∈ specs)
    (closed : spec.embedded? = none) :
    ∃ x, emitted.ports.get? key = some ⟨x, [x]⟩ ∧ Given specs emitted.ids ⟨[key], spec⟩ x := by
  induction run with
  | nil => contradiction
  | @plain within key' parent taken taken' spec' rest others closed' after ih =>
      obtain ⟨fresh, distinct⟩ := List.nodup_cons.mp distinct
      obtain here | later := List.mem_cons.mp entry
      · cases here
        refine ⟨_, (Entries.get?_cons _ _ _ _).trans (if_pos rfl), ?_⟩
        exact (given_plain closed').mpr (.inl ⟨rfl, rfl⟩)
      · obtain ⟨x, port, given⟩ := ih distinct later
        have known : key ∈ Entries.names rest := List.mem_map_of_mem later
        have other : key ≠ key' := fun same => fresh (same ▸ known)
        refine ⟨x, (Entries.get?_cons _ _ _ _).trans ((if_neg other).trans port), ?_⟩
        exact (given_plain closed').mpr (.inr given)
  | @group within id key' parent taken between taken' spec' body inner ts rest others claimed embeds
      inside derived after ihInside ihAfter =>
      obtain ⟨fresh, distinct⟩ := List.nodup_cons.mp distinct
      obtain here | later := List.mem_cons.mp entry
      · cases here
        rw [closed] at embeds
        contradiction
      · obtain ⟨x, port, given⟩ := ihAfter distinct later
        have known : key ∈ Entries.names rest := List.mem_map_of_mem later
        have other : key ≠ key' := fun same => fresh (same ▸ known)
        refine ⟨x, (Entries.get?_cons _ _ _ _).trans ((if_neg other).trans port), ?_⟩
        exact (inside.given_group_append embeds).mpr (.inr (.inr given))

/-- A link of a scope comes from a transition between two of its keys. -/
theorem Emits.origin_of_mem_linksOf (run : Emits within parent taken flow.entries emitted taken')
    (derived : ofScope flow = .ok ts) (used : t ∈ ts) (member : l ∈ linksOf emitted.ports t) :
    ∃ key target p, HasTransition flow key target l.label ∧ (key, p) ∈ emitted.ports ∧
      l.source ∈ p.exits ∧ EnteredAs flow.entries emitted.ids [] flow target l.target := by
  obtain ⟨source, target, attached, way, enters, label⟩ := mem_linksOf.mp member
  obtain ⟨key, key', from_key, to_key, port, port', -⟩ := attached?_eq_some attached
  obtain ⟨spec, e, listed, entered, given⟩ := run.portsEnter key' target port'
  refine ⟨key, key', source, label ▸ .of_mem derived used from_key to_key, port, way, ?_⟩
  exact ⟨spec, e, listed, entered, enters ▸ given⟩

end

/-! ## Nested scopes -/

/-- The scope that a key embeds, in what the scope around it emits: its links are among those
emitted, no other link leaves one of its nodes, and its ways out are those of its key. -/
structure Hosts (specs : List (String × NodeSpec)) (emitted : Emitted) (key : String) (body : Flow)
    (inner : Emitted) (g : Graph) : Prop where
  given : ∀ e x, Given body.entries inner.ids e x → Given specs emitted.ids (e.below [key]) x
  known : ∀ x ∈ inner.ids, x ∈ emitted.ids
  kept : ∀ l ∈ g.links, l ∈ emitted.links
  own : ∀ l ∈ emitted.links, l.source ∈ inner.ids → l ∈ g.links
  port : ∀ key' p, (key', p) ∈ emitted.ports → ∀ x ∈ p.exits, x ∈ inner.ids → key' = key

namespace Hosts

variable {specs rest : List (String × NodeSpec)} {emitted front inner : Emitted} {g : Graph}
variable {key : String} {body : Flow}

/-- What is emitted in front changes nothing. -/
theorem after (h : Hosts specs emitted key body inner g) (coherent : front.Coherent)
    (apart : List.Disjoint front.ids emitted.ids)
    (given : ∀ e x, Given specs emitted.ids e x → Given rest (front.append emitted).ids e x) :
    Hosts rest (front.append emitted) key body inner g where
  given := fun e x place => given _ _ (h.given e x place)
  known := fun x member => by
    rw [Emitted.ids_append]
    exact List.mem_append_right _ (h.known x member)
  kept := fun l member => by
    rw [Emitted.links_append]
    exact List.mem_append_right _ (h.kept l member)
  own := by
    intro l member source
    rw [Emitted.links_append] at member
    obtain early | late := List.mem_append.mp member
    · exact absurd (h.known _ source) (apart (coherent.ends_mem l early).1)
    · exact h.own l late source
  port := by
    intro key' p member x way inside
    obtain early | late := List.mem_append.mp member
    · have before := coherent.exit_mem (Emitted.mem_exits.mpr ⟨key', p, early, way⟩)
      exact absurd (h.known x inside) (apart before)
    · exact h.port key' p late x way inside

end Hosts

/-- A group hosts its own scope, whatever comes after it. -/
theorem hosts_group {id key within : String} {taken between taken' : List String}
    {spec : NodeSpec} {rest : List (String × NodeSpec)} {body : Flow} {inner others : Emitted}
    {outer : Option String} (inside : Emits id (some id) (id :: taken) body.entries inner between)
    (after : Emits within outer between rest others taken') (embeds : spec.embedded? = some body)
    (ts : List Transition) (parent : Option String) :
    Hosts ((key, spec) :: rest)
      ((group parent id key spec (connect inner body.start.value? ts)).append others) key body inner
      (connect inner body.start.value? ts) := by
  have apart : ∀ x ∈ inner.ids, x ∉ others.ids := fun x member later =>
    inside.disjoint_after after (List.mem_cons_of_mem _ member) later
  refine ⟨fun e x place => ?_, fun x member => ?_, fun l member => ?_, ?_, ?_⟩
  · exact (inside.given_group_append embeds).mpr (.inr (.inl ⟨e, place, rfl⟩))
  · rw [Emitted.ids_append]
    exact List.mem_append_left _ (List.mem_cons_of_mem _ member)
  · rw [Emitted.links_append]
    exact List.mem_append_left _ member
  · intro l member source
    rw [Emitted.links_append] at member
    obtain own | late := List.mem_append.mp member
    · exact own
    · exact absurd (after.coherent.ends_mem l late).1 (apart _ source)
  · intro key' p member x way known
    obtain own | late := List.mem_cons.mp member
    · exact congrArg Prod.fst own
    · have behind := after.coherent.exit_mem (Emitted.mem_exits.mpr ⟨key', p, late, way⟩)
      exact absurd behind (apart x known)

/-- Every scope inside a group is hosted by the pass that emits the group. -/
theorem Emits.exists_hosts {within : String} {parent : Option String} {taken taken' : List String}
    {specs : List (String × NodeSpec)} {emitted : Emitted} {key : String} {spec : NodeSpec}
    {body : Flow} (run : Emits within parent taken specs emitted taken')
    (entry : (key, spec) ∈ specs) (embeds : spec.embedded? = some body) :
    ∃ id before inner between ts, Emits id (some id) (id :: before) body.entries inner between ∧
      ofScope body = .ok ts ∧
      Hosts specs emitted key body inner (connect inner body.start.value? ts) := by
  induction run with
  | nil => contradiction
  | @plain within key' parent taken taken' spec' rest others closed after ih =>
      obtain here | later := List.mem_cons.mp entry
      · cases here
        rw [closed] at embeds
        contradiction
      · obtain ⟨id, before, inner, between, ts, inside, derived, hosts⟩ := ih later
        refine ⟨id, before, inner, between, ts, inside, derived, ?_⟩
        refine hosts.after (coherent_plainNode _ _ _ _) ?_ fun e x place => ?_
        · exact List.singleton_disjoint.mpr after.head_not_mem
        · exact (given_plain closed).mpr (.inr place)
  | @group within id key' parent taken between taken' spec' body' inner ts rest others claimed
      embeds' inside derived after ihInside ihAfter =>
      have apart := inside.disjoint_after after
      obtain here | later := List.mem_cons.mp entry
      · cases here
        obtain rfl := Option.some.inj (embeds.symm.trans embeds')
        exact ⟨id, taken, inner, between, ts, inside, derived,
          hosts_group inside after embeds ts parent⟩
      · obtain ⟨id', before, inner', between', ts', inside', derived', hosts⟩ := ihAfter later
        refine ⟨id', before, inner', between', ts', inside', derived', ?_⟩
        have coherent := (inside.coherent.connect body'.start.value? ts).group inside.head_not_mem
        refine hosts.after (coherent _ _ _) apart fun e x place => ?_
        exact (inside.given_group_append embeds').mpr (.inr (.inr place))

/-! ## Links of a node -/

section

variable {within : String} {parent : Option String} {taken taken' path : List String}
variable {emitted : Emitted} {key x : String} {spec : NodeSpec} {flow scope : Flow}
variable {ts : List Transition}

/-- In its own scope a plain node has the links of its transitions and no others. -/
theorem Emits.accounted_own (run : Emits within parent taken flow.entries emitted taken')
    (derived : ofScope flow = .ok ts)
    (port : emitted.ports.get? key = some ⟨x, [x]⟩) :
    Accounted flow emitted.ids (connect emitted flow.start.value? ts).links [] flow key x := by
  have listed := Entries.mem_of_get? port
  have way : x ∈ emitted.exits :=
    Emitted.mem_exits.mpr ⟨key, _, listed, List.mem_singleton_self x⟩
  refine ⟨?_, fun l member source => .inl ?_⟩
  · rintro target label ⟨ts', derived', used⟩ known
    obtain rfl := Except.ok.inj (derived.symm.trans derived')
    obtain ⟨entry, member, rfl⟩ := List.mem_map.mp known
    obtain ⟨p, found⟩ := run.exists_port member
    obtain ⟨spec, e, listed', enters, given⟩ := run.portsEnter _ p (Entries.mem_of_get? found)
    refine ⟨⟨x, p.entry, label⟩, (mem_links_connect _ _).mpr (.inr ⟨_, used, ?_⟩), rfl, rfl,
      spec, e, listed', enters, given⟩
    have attached := attached?_of_get? (t := ⟨some key, some entry.1, label⟩) rfl rfl port found
    exact mem_linksOf.mpr ⟨_, p, attached, List.mem_singleton_self x, rfl, rfl⟩
  · obtain old | ⟨t, used, new⟩ := (mem_links_connect _ _).mp member
    · exact absurd (source ▸ way) (run.coherent.source_not_exit l old)
    · obtain ⟨key', target, p, leads, port', way', enters⟩ :=
        run.origin_of_mem_linksOf derived used new
      obtain ⟨rfl, -⟩ := Emitted.port_unique run.coherent.exits_distinct port' listed way'
        (source ▸ List.mem_singleton_self x)
      exact ⟨target, leads, enters⟩

/-- The links of a plain node are accounted for in the whole graph as they are in its scope. -/
theorem exists_accounted (place : ScopeAt flow path scope) (entry : (key, spec) ∈ scope.entries)
    (closed : spec.embedded? = none) (keyed : Flow.Keyed flow)
    (run : Emits within parent taken flow.entries emitted taken')
    (derived : ofScope flow = .ok ts) :
    ∃ x, Given flow.entries emitted.ids ⟨path ++ [key], spec⟩ x ∧
      Accounted flow emitted.ids (connect emitted flow.start.value? ts).links path scope key x := by
  induction place generalizing within parent taken emitted taken' ts with
  | root =>
      obtain ⟨x, port, given⟩ := run.exists_plain_port keyed.distinct entry closed
      exact ⟨x, given, run.accounted_own derived port⟩
  | @inside flow body scope group outer path entry' embeds further ih =>
      obtain ⟨id, before, inner, between, ts', inside, derived', hosts⟩ :=
        run.exists_hosts entry' embeds
      obtain ⟨x, given, accounted⟩ := ih entry (keyed.embedded entry' embeds) inside derived'
      have known : x ∈ inner.ids := (List.of_mem_zip given).2
      refine ⟨x, hosts.given _ _ given, ?_, ?_⟩
      · intro target label leads listed
        obtain ⟨l, member, source, label, enters⟩ := accounted.leaves target label leads listed
        refine ⟨l, (mem_links_connect _ _).mpr (.inl (hosts.kept l member)), source, label, ?_⟩
        exact enters.shift [group] hosts.given
      · intro l member source
        obtain old | ⟨t, used, new⟩ := (mem_links_connect _ _).mp member
        · obtain ⟨target, leads, enters⟩ | ⟨stuck, around⟩ :=
            accounted.arises l (hosts.own l old (source ▸ known)) source
          · exact .inl ⟨target, leads, enters.shift [group] hosts.given⟩
          · refine .inr ⟨stuck, ?_⟩
            obtain ⟨outer, group', further, around, target, split, place, leads, enters⟩ := around
            exact ⟨group :: outer, group', further, around, target, congrArg (group :: ·) split,
              .inside entry' embeds place, leads, enters.shift [group] hosts.given⟩
        · obtain ⟨key', target, p, leads, port, way, enters⟩ :=
            run.origin_of_mem_linksOf derived used new
          obtain rfl := hosts.port key' p port l.source way (source ▸ known)
          refine .inr ⟨fun target label leads listed => ?_, [], key', path, flow, target, rfl,
            .root, leads, enters⟩
          -- A link inside would start at a way out.
          obtain ⟨l', member', source', -⟩ := accounted.leaves target label leads listed
          refine run.coherent.source_not_exit l' (hosts.kept l' member') ?_
          exact Emitted.mem_exits.mpr ⟨key', p, port, source' ▸ source ▸ way⟩

end

end FlowDiagram.Graph
