import FlowDiagram.Proofs.Graph.Boundary
/-!
# Parts of a scope

What a scope emits falls into parts, one for each of its keys: the node of the key, and
below it whatever the scope inside that node emits. Ports of a key lead into its own part,
and before the transitions of the scope are connected no link leaves a part.

The parents of nodes show the parts again. Whatever stands under a node of a part lies in
that part, so the node of a key with all its descendants is exactly the part of the key.
-/

namespace FlowDiagram.Graph

open Definition Transition

/-- What one key of a scope emits: its own node, the nodes in it, and the ports. -/
structure Part where
  key : String
  ports : Ports
  head : Node
  inner : List Node := []

namespace Part

def nodes (p : Part) : List Node := p.head :: p.inner

/-- The identifiers of a part, its own first. -/
def ids (p : Part) : List String := p.nodes.map Node.id

theorem head_mem_ids (p : Part) : p.head.id ∈ p.ids := List.mem_cons_self

/-- A part holds together under its own node, which stands under `parent` and shows the key,
and its ports lead into it. -/
structure Sound (p : Part) (parent : Option String) : Prop where
  top : p.head.parent = parent
  shows : p.head.label = if p.head.isGroup then "Subflow: " ++ p.key else p.key
  nested : ∀ n ∈ p.inner, ∃ up ∈ p.ids, n.parent = some up
  inside : ∀ x ∈ p.ids, Inside p.nodes p.head.id x
  entry : p.ports.entry ∈ p.ids
  leads : p.ports.exits ≠ []
  exits : ∀ x ∈ p.ports.exits, x ∈ p.ids

/-- The part of a node without a scope in it. -/
def plain (parent : Option String) (id key : String) (spec : NodeSpec) : Part where
  key := key
  ports := ⟨id, [id]⟩
  head := { id, parent, label := key, spec }

/-- The part of a group with the graph of its scope. -/
def group (parent : Option String) (id key : String) (spec : NodeSpec) (inner : Graph) : Part where
  key := key
  ports := ⟨(nonEmpty inner.entry).getD id, if inner.exits.isEmpty then [id] else inner.exits⟩
  head := { id, isGroup := true, parent, label := "Subflow: " ++ key, spec }
  inner := inner.nodes

theorem sound_plain (parent : Option String) (id key : String) (spec : NodeSpec) :
    (plain parent id key spec).Sound parent where
  top := rfl
  shows := rfl
  nested := fun n member => absurd member List.not_mem_nil
  inside := by
    intro x member
    obtain rfl := List.mem_singleton.mp member
    exact .self
  entry := List.mem_cons_self
  leads := List.cons_ne_nil _ _
  exits := fun _ way => way

end Part

/-- The parts of what a scope emits, in the order of its keys. -/
structure Parted (specs : List (String × NodeSpec)) (parent : Option String) (emitted : Emitted)
    (parts : List Part) : Prop where
  specs : specs = parts.map fun p => (p.key, p.head.spec)
  ports : emitted.ports = parts.map fun p => (p.key, p.ports)
  nodes : emitted.nodes = parts.flatMap Part.nodes
  sound : ∀ p ∈ parts, p.Sound parent
  links : ∀ l ∈ emitted.links, ∃ p ∈ parts, l.source ∈ p.ids ∧ l.target ∈ p.ids

section

variable {specs : List (String × NodeSpec)} {parent : Option String} {emitted : Emitted}
variable {parts : List Part} {key : String}

theorem Parted.empty (parent : Option String) : Parted [] parent {} [] where
  specs := rfl
  ports := rfl
  nodes := rfl
  sound := fun _ member => absurd member List.not_mem_nil
  links := fun _ member => absurd member List.not_mem_nil

/-- One more part stands in front of the others. -/
theorem Parted.cons (h : Parted specs parent emitted parts) {p : Part} (sound : p.Sound parent)
    {first : Emitted} (ports : first.ports = [(p.key, p.ports)]) (nodes : first.nodes = p.nodes)
    (links : ∀ l ∈ first.links, l.source ∈ p.ids ∧ l.target ∈ p.ids) :
    Parted ((p.key, p.head.spec) :: specs) parent (first.append emitted) (p :: parts) where
  specs := congrArg (_ :: ·) h.specs
  ports := by rw [Emitted.ports_append, ports, h.ports]; rfl
  nodes := by rw [Emitted.nodes_append, nodes, h.nodes]; rfl
  sound := List.forall_mem_cons.mpr ⟨sound, h.sound⟩
  links := by
    intro l member
    rw [Emitted.links_append] at member
    obtain own | other := List.mem_append.mp member
    · exact ⟨p, List.mem_cons_self, links l own⟩
    · obtain ⟨q, listed, ends⟩ := h.links l other
      exact ⟨q, List.mem_cons_of_mem _ listed, ends⟩

end

section

variable {within : String} {parent : Option String} {taken taken' : List String}

section

variable {id : String} {between : List String} {specs : List (String × NodeSpec)} {inner : Emitted}

theorem Emits.coherent_group (inside : Emits id (some id) (id :: taken) specs inner between)
    (parent : Option String) (key : String) (spec : NodeSpec) (start : Option String)
    (ts : List Transition) :
    (Graph.group parent id key spec (connect inner start ts)).Coherent :=
  (inside.coherent.connect start ts).group inside.head_not_mem parent key spec

/-- What a scope emits is the inside of the group around it. -/
theorem Emits.sound_group (inside : Emits id (some id) (id :: taken) specs inner between)
    (key : String) (spec : NodeSpec) (start : Option String) (ts : List Transition) :
    (Part.group parent id key spec (connect inner start ts)).Sound parent := by
  have coherent := inside.coherent_group parent key spec start ts
  have exits : (Part.group parent id key spec (connect inner start ts)).ports.exits =
      (Graph.group parent id key spec (connect inner start ts)).exits :=
    (List.flatMap_singleton _ _).symm
  constructor
  · rfl
  · rfl
  · intro n member
    obtain top | ⟨up, known, above⟩ := inside.rooted n member
    · exact ⟨id, List.mem_cons_self, top⟩
    · exact ⟨up, List.mem_cons_of_mem _ known, above⟩
  · intro x member
    obtain rfl | nested := List.mem_cons.mp member
    · exact .self
    · exact (inside.inside_parent _ rfl x nested).mono (List.subset_cons_self _ _)
  · exact coherent.entry_mem _ List.mem_cons_self
  · rw [exits, Emitted.exits_group]
    split
    · exact List.cons_ne_nil _ _
    · assumption
  · exact fun x way => coherent.exit_mem (exits ▸ way)

end

section

variable {specs : List (String × NodeSpec)} {others : Emitted} {parts : List Part}

theorem Parted.cons_plain (h : Parted specs parent others parts) (id key : String)
    (spec : NodeSpec) :
    Parted ((key, spec) :: specs) parent ((plainNode parent id key spec).append others)
      (.plain parent id key spec :: parts) :=
  h.cons (p := .plain parent id key spec) (Part.sound_plain parent id key spec) rfl rfl
    fun _ member => absurd member List.not_mem_nil

theorem Parted.cons_group (h : Parted specs parent others parts) {id : String}
    {between : List String} {inside : List (String × NodeSpec)} {inner : Emitted}
    (run : Emits id (some id) (id :: taken) inside inner between) (key : String)
    (spec : NodeSpec) (start : Option String) (ts : List Transition) :
    Parted ((key, spec) :: specs) parent
      ((Graph.group parent id key spec (connect inner start ts)).append others)
      (.group parent id key spec (connect inner start ts) :: parts) :=
  h.cons (p := .group parent id key spec (connect inner start ts))
    (run.sound_group key spec start ts) rfl rfl
    (run.coherent_group parent key spec start ts).ends_mem

end

/-- Every pass emits parts. -/
theorem Emits.exists_parted {specs : List (String × NodeSpec)} {emitted : Emitted}
    (run : Emits within parent taken specs emitted taken') :
    ∃ parts, Parted specs parent emitted parts := by
  induction run with
  | nil => exact ⟨[], .empty _⟩
  | plain closed after ih =>
      obtain ⟨parts, parted⟩ := ih
      exact ⟨_, parted.cons_plain _ _ _⟩
  | group claimed embeds inside derived after ihInside ihAfter =>
      obtain ⟨parts, parted⟩ := ihAfter
      exact ⟨_, parted.cons_group inside _ _ _ _⟩

end

/-! ## Parts and parents -/

namespace Parted

variable {specs : List (String × NodeSpec)} {parent : Option String} {emitted : Emitted}
variable {parts : List Part} {p q : Part} {a x : String}

theorem ids_eq (h : Parted specs parent emitted parts) : emitted.ids = parts.flatMap Part.ids := by
  rw [Emitted.ids, h.nodes, List.map_flatMap]
  rfl

theorem mem_ids (h : Parted specs parent emitted parts) :
    x ∈ emitted.ids ↔ ∃ p ∈ parts, x ∈ p.ids := by
  rw [h.ids_eq, List.mem_flatMap]

theorem mem_ids_of_mem (h : Parted specs parent emitted parts) (part : p ∈ parts)
    (member : x ∈ p.ids) : x ∈ emitted.ids :=
  h.mem_ids.mpr ⟨p, part, member⟩

/-- Each identifier belongs to one part. -/
theorem part_unique (h : Parted specs parent emitted parts) (distinct : emitted.ids.Nodup)
    (part : p ∈ parts) (part' : q ∈ parts) (member : x ∈ p.ids) (member' : x ∈ q.ids) : p = q :=
  eq_of_nodup_flatMap (h.ids_eq ▸ distinct) part part' member member'

theorem nodes_subset (h : Parted specs parent emitted parts) (part : p ∈ parts) :
    p.nodes ⊆ emitted.nodes := by
  intro n member
  rw [h.nodes]
  exact List.mem_flatMap.mpr ⟨p, part, member⟩

/-- Above a node of a part there are only nodes of the part, up to its own one. -/
theorem inside_part (h : Parted specs parent emitted parts) (distinct : emitted.ids.Nodup)
    (outer : ∀ q, parent = some q → q ∉ emitted.ids) (part : p ∈ parts)
    (lies : Inside emitted.nodes a x) (known : a ∈ emitted.ids) (member : x ∈ p.ids) :
    a ∈ p.ids ∧ Inside p.nodes a x := by
  induction lies with
  | self => exact ⟨member, .self⟩
  | @child n up listed above further ih =>
      rw [h.nodes] at listed
      obtain ⟨q, part', own⟩ := List.mem_flatMap.mp listed
      obtain rfl := h.part_unique distinct part' part (List.mem_map_of_mem own) member
      obtain rfl | nested := List.mem_cons.mp own
      · -- The chain leaves the scope here, so `a` is not one of its nodes.
        have outside := outer up (((h.sound q part).top).symm.trans above)
        cases further with
        | self => exact absurd known outside
        | child listed' => exact absurd (List.mem_map_of_mem listed') outside
      · obtain ⟨up', known', above'⟩ := (h.sound q part).nested n nested
        obtain rfl := Option.some.inj (above'.symm.trans above)
        obtain ⟨start, path⟩ := ih known'
        exact ⟨start, .child own above path⟩

/-- The node of a key with all its descendants is the part of the key. -/
theorem inside_head_iff (h : Parted specs parent emitted parts) (distinct : emitted.ids.Nodup)
    (outer : ∀ q, parent = some q → q ∉ emitted.ids) (part : p ∈ parts) :
    Inside emitted.nodes p.head.id x ↔ x ∈ p.ids := by
  constructor
  · intro lies
    have known := h.mem_ids_of_mem part p.head_mem_ids
    obtain ⟨q, part', member⟩ : ∃ q ∈ parts, x ∈ q.ids := by
      refine h.mem_ids.mp ?_
      cases lies with
      | self => exact known
      | child listed => exact List.mem_map_of_mem listed
    have here := (h.inside_part distinct outer part' lies known member).1
    obtain rfl := h.part_unique distinct part part' p.head_mem_ids here
    exact member
  · exact fun member => ((h.sound p part).inside x member).mono (h.nodes_subset part)

end Parted

/-! ## Parts and ports -/

section

variable {ports : Entries Ports} {t : Transition} {key : String}

theorem attached?_of_get? {a b : String} {source target : Ports} (from_a : t.source = some a)
    (to_b : t.target = some b) (found : ports.get? a = some source)
    (found' : ports.get? b = some target) : attached? ports t = some (source, target) := by
  rw [attached?, from_a, to_b, Option.bind_some, Option.bind_some, found, found']

/-- A transition leads from one key to another one, both of them known. -/
structure Joins (keys : List String) (t : Transition) (a b : String) : Prop where
  source : t.source = some a
  target : t.target = some b
  known_source : a ∈ keys
  known_target : b ∈ keys

end

namespace Parted

variable {specs : List (String × NodeSpec)} {parent : Option String} {emitted : Emitted}
variable {parts : List Part} {p q : Part} {t : Transition} {key : String}

theorem names_eq (h : Parted specs parent emitted parts) :
    Entries.names specs = parts.map Part.key := by
  rw [Entries.names, h.specs, List.map_map]
  rfl

theorem exists_part (h : Parted specs parent emitted parts) (known : key ∈ Entries.names specs) :
    ∃ p ∈ parts, p.key = key :=
  List.mem_map.mp (h.names_eq ▸ known)

theorem key_mem (h : Parted specs parent emitted parts) (part : p ∈ parts) :
    p.key ∈ Entries.names specs :=
  h.names_eq ▸ List.mem_map_of_mem part

theorem get?_ports (h : Parted specs parent emitted parts)
    (keyed : (Entries.names specs).Nodup) (part : p ∈ parts) :
    emitted.ports.get? p.key = some p.ports := by
  refine Entries.get?_of_mem ?_ ?_
  · rw [h.ports, Entries.names, List.map_map]
    exact h.names_eq ▸ keyed
  · rw [h.ports]
    exact List.mem_map_of_mem part

/-- A port belongs to the part of its key. -/
theorem part_of_port (h : Parted specs parent emitted parts) {found : Ports}
    (port : (key, found) ∈ emitted.ports) : ∃ p ∈ parts, p.key = key ∧ p.ports = found := by
  rw [h.ports] at port
  obtain ⟨p, part, same⟩ := List.mem_map.mp port
  exact ⟨p, part, Prod.mk.inj same⟩

theorem attached?_eq (h : Parted specs parent emitted parts)
    (keyed : (Entries.names specs).Nodup) (part : p ∈ parts) (part' : q ∈ parts)
    (source : t.source = some p.key) (target : t.target = some q.key) :
    attached? emitted.ports t = some (p.ports, q.ports) :=
  attached?_of_get? source target (h.get?_ports keyed part) (h.get?_ports keyed part')

/-- A transition is attached exactly when it joins known keys, to the ports of their parts. -/
theorem exists_joins (h : Parted specs parent emitted parts) {ends : Ports × Ports}
    (attached : attached? emitted.ports t = some ends) :
    ∃ p ∈ parts, ∃ q ∈ parts, Joins (Entries.names specs) t p.key q.key ∧
      ends = (p.ports, q.ports) := by
  obtain ⟨source, target⟩ := ends
  obtain ⟨a, b, from_a, to_b, port, port', -⟩ := attached?_eq_some attached
  obtain ⟨p, part, rfl, rfl⟩ := h.part_of_port port
  obtain ⟨q, part', rfl, rfl⟩ := h.part_of_port port'
  exact ⟨p, part, q, part', ⟨from_a, to_b, h.key_mem part, h.key_mem part'⟩, rfl⟩

end Parted

end FlowDiagram.Graph
