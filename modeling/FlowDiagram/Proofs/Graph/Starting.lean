import FlowDiagram.Proofs.Graph.Preorder
/-!
# Where a graph is entered

The start of a scope names one of its nodes. If that node embeds a scope with a start of its own,
the graph is entered further inside, and so on until a node without a scope, or with a scope whose
start names nothing (`Opens`). `ofFlow_start` proves that the entry of a graph is the identifier of
this node, that just this node is marked, and that another start of the outermost scope changes
nothing but the mark.

Identifiers are compared with the empty text on the way, and a mark is set on the first node with
an identifier. Neither loses anything: nothing inside a group has the empty identifier, the key
that a start names is not empty, and all identifiers differ.
-/

namespace FlowDiagram.Graph

open Definition Document Layout Transition

/-! ## Following the starts -/

/-- The start of a scope names a node of it. The empty name names none. -/
structure StartsAt (flow : Flow) (key : String) (spec : NodeSpec) : Prop where
  named : flow.start.value? = some key
  filled : key ≠ ""
  listed : (key, spec) ∈ flow.entries

/-- Whoever enters a node under its key comes to a node in it, or stays where nothing is started
inside. -/
inductive Enters : String → NodeSpec → Listed → Prop
  | here {key : String} {spec : NodeSpec}
      (still : ∀ body, spec.embedded? = some body → ∀ key' spec', ¬StartsAt body key' spec') :
      Enters key spec ⟨[key], spec⟩
  | inside {key key' : String} {spec spec' : NodeSpec} {body : Flow} {e : Listed}
      (embeds : spec.embedded? = some body) (starts : StartsAt body key' spec')
      (further : Enters key' spec' e) : Enters key spec (e.below [key])

/-- Where a scope is entered, following its start and those of the scopes inside it. -/
def Opens (flow : Flow) (e : Listed) : Prop :=
  ∃ key spec, StartsAt flow key spec ∧ Enters key spec e

section

variable {flow body : Flow} {key key' : String} {spec spec' : NodeSpec} {e e' : Listed}

theorem StartsAt.unique (first : StartsAt flow key spec) (second : StartsAt flow key' spec')
    (distinct : flow.entries.names.Nodup) : key = key' ∧ spec = spec' := by
  obtain rfl := Option.some.inj (first.named.symm.trans second.named)
  have found := Entries.get?_of_mem distinct first.listed
  rw [Entries.get?_of_mem distinct second.listed] at found
  exact ⟨rfl, (Option.some.inj found).symm⟩

/-- A start that names no node is missing, empty, or not a key. -/
theorem forall_not_startsAt_iff : (∀ key spec, ¬StartsAt flow key spec) ↔
    ∀ key, flow.start.value? = some key → key = "" ∨ key ∉ flow.entries.names := by
  constructor
  · intro none key named
    by_contra! other
    obtain ⟨filled, known⟩ := other
    obtain ⟨⟨_, spec⟩, listed, rfl⟩ := List.mem_map.mp known
    exact none _ spec ⟨named, filled, listed⟩
  · intro missing key spec starts
    obtain empty | unknown := missing key starts.named
    · exact starts.filled empty
    · exact unknown (List.mem_map_of_mem starts.listed)

theorem Enters.unique (first : Enters key spec e) (second : Enters key spec e')
    (keyed : ∀ body, spec.embedded? = some body → Flow.Keyed body) : e = e' := by
  induction first generalizing e' with
  | here still =>
      cases second with
      | here => rfl
      | inside embeds starts further => exact absurd starts (still _ embeds _ _)
  | inside embeds starts further ih =>
      cases second with
      | here still => exact absurd starts (still _ embeds _ _)
      | inside embeds' starts' further' =>
          obtain rfl := Option.some.inj (embeds.symm.trans embeds')
          have inner := keyed _ embeds
          obtain ⟨rfl, rfl⟩ := starts.unique starts' inner.distinct
          rw [ih further' fun body embeds => inner.embedded starts.listed embeds]

/-- A scope is entered at one place only. -/
theorem Opens.unique (keyed : Flow.Keyed flow) (first : Opens flow e) (second : Opens flow e') :
    e = e' := by
  obtain ⟨key, spec, starts, enters⟩ := first
  obtain ⟨key', spec', starts', enters'⟩ := second
  obtain ⟨rfl, rfl⟩ := starts.unique starts' keyed.distinct
  exact enters.unique enters' fun body embeds => keyed.embedded starts.listed embeds

end

/-! ## Ports lead where the starts lead -/

section

variable {within id key : String} {parent : Option String} {taken taken' : List String}
variable {specs : List (String × NodeSpec)} {emitted inner : Emitted} {body : Flow} {x : String}
variable {ts : List Transition}

/-- A scope emits one node for each entry of its outline. -/
theorem Emits.length_ids (run : Emits within parent taken specs emitted taken') :
    emitted.ids.length = (outline specs).length := by
  induction run with
  | nil => simp
  | plain closed after ih => simp [outline_plain closed, ih]
  | group claimed embeds inside derived after ihInside ihAfter =>
      simp [outline_group embeds, ihInside, ihAfter]

/-- An identifier is the one that a pass gives to an entry of the outline. -/
def Given (specs : List (String × NodeSpec)) (ids : List String) (e : Listed) (x : String) :
    Prop :=
  (e, x) ∈ (outline specs).zip ids

theorem given_plain {spec : NodeSpec} {rest : List (String × NodeSpec)} {ids : List String}
    {e : Listed} (closed : spec.embedded? = none) :
    Given ((key, spec) :: rest) (id :: ids) e x ↔
      e = ⟨[key], spec⟩ ∧ x = id ∨ Given rest ids e x := by
  rw [Given, outline_plain closed, List.zip_cons_cons, List.mem_cons, Prod.mk.injEq, Given]

theorem given_group {spec : NodeSpec} {rest : List (String × NodeSpec)} {ids nested : List String}
    {e : Listed} (embeds : spec.embedded? = some body)
    (length : nested.length = (outline body.entries).length) :
    Given ((key, spec) :: rest) (id :: (nested ++ ids)) e x ↔
      e = ⟨[key], spec⟩ ∧ x = id ∨ (∃ e', Given body.entries nested e' x ∧ e'.below [key] = e) ∨
        Given rest ids e x := by
  have inside : (e, x) ∈ ((outline body.entries).map (Listed.below [key])).zip nested ↔
      ∃ e', Given body.entries nested e' x ∧ e'.below [key] = e := by
    simp [List.zip_map_left, Given]
  rw [Given, outline_group embeds, List.zip_cons_cons,
    List.zip_append (by rw [List.length_map, length]), List.mem_cons, List.mem_append, inside,
    Prod.mk.injEq, Given]

theorem nonEmpty_eq_some_iff {r : Option String} :
    nonEmpty r = some key ↔ r = some key ∧ key ≠ "" := by
  simp [nonEmpty, Option.filter_eq_some_iff]

/-- A start leads to the port of its key. -/
theorem entry_connect_eq_some_iff {start : Option String} :
    (connect emitted start ts).entry = some x ↔
      ∃ key, start = some key ∧ key ≠ "" ∧ ∃ p, emitted.ports.get? key = some p ∧ p.entry = x := by
  change entryOf _ _ = some x ↔ _
  simp only [entryOf, Option.map_eq_some_iff, Option.bind_eq_some_iff, nonEmpty_eq_some_iff]
  constructor
  · rintro ⟨p, ⟨key, ⟨named, some⟩, found⟩, enters⟩
    exact ⟨key, named, some, p, found, enters⟩
  · rintro ⟨key, named, some, p, found, enters⟩
    exact ⟨p, ⟨key, ⟨named, some⟩, found⟩, enters⟩

/-- The ports of a scope lead where its nodes are entered. -/
def PortsEnter (specs : List (String × NodeSpec)) (emitted : Emitted) : Prop :=
  ∀ key p, (key, p) ∈ emitted.ports →
    ∃ spec e, (key, spec) ∈ specs ∧ Enters key spec e ∧ Given specs emitted.ids e p.entry

/-- A scope is entered where its start and those inside it lead. -/
theorem exists_opens_of_entry (ports : PortsEnter body.entries emitted)
    (entered : (connect emitted body.start.value? ts).entry = some x) :
    ∃ e, Opens body e ∧ Given body.entries emitted.ids e x := by
  obtain ⟨key, named, filled, p, found, rfl⟩ := entry_connect_eq_some_iff.mp entered
  obtain ⟨spec, e, listed, enters, given⟩ := ports key p (Entries.mem_of_get? found)
  exact ⟨e, ⟨key, spec, ⟨named, filled, listed⟩, enters⟩, given⟩

/-- A scope has no way in exactly if its start names no node. -/
theorem entry_connect_eq_none_iff (run : Emits within parent taken body.entries emitted taken')
    (ports : PortsEnter body.entries emitted) :
    (connect emitted body.start.value? ts).entry = none ↔
      ∀ key spec, ¬StartsAt body key spec := by
  rw [Option.eq_none_iff_forall_ne_some]
  constructor
  · intro closed key spec starts
    obtain ⟨p, found⟩ := run.exists_port starts.listed
    refine closed p.entry (entry_connect_eq_some_iff.mpr ?_)
    exact ⟨key, starts.named, starts.filled, p, found, rfl⟩
  · intro still x entered
    obtain ⟨e, ⟨key, spec, starts, -⟩, -⟩ := exists_opens_of_entry ports entered
    exact still key spec starts

/-- The port of a group leads into its scope, or to the group itself if its scope has no start. -/
theorem exists_enters_group {spec : NodeSpec}
    (inside : Emits id (some id) (id :: taken) body.entries inner taken')
    (embeds : spec.embedded? = some body) (ports : PortsEnter body.entries inner) :
    ∃ e, Enters key spec e ∧
      ((nonEmpty (connect inner body.start.value? ts).entry).getD id = id ∧ e = ⟨[key], spec⟩ ∨
        ∃ e', Given body.entries inner.ids e'
          ((nonEmpty (connect inner body.start.value? ts).entry).getD id) ∧ e'.below [key] = e) := by
  cases entered : (connect inner body.start.value? ts).entry with
  | none =>
      refine ⟨_, .here fun body' embeds' => ?_, .inl ⟨rfl, rfl⟩⟩
      obtain rfl := Option.some.inj (embeds.symm.trans embeds')
      exact (entry_connect_eq_none_iff inside ports).mp entered
  | some x =>
      obtain ⟨e, ⟨key', spec', starts, enters⟩, given⟩ := exists_opens_of_entry ports entered
      have named : x ≠ "" := fun empty => inside.empty_not_mem (empty ▸ (List.of_mem_zip given).2)
      have filled : nonEmpty (some x) = some x := by simpa [nonEmpty] using named
      rw [filled]
      exact ⟨_, .inside embeds starts enters, .inr ⟨e, given, rfl⟩⟩

/-- Each pass gives its keys the ports where their nodes are entered. -/
theorem Emits.portsEnter (run : Emits within parent taken specs emitted taken') :
    PortsEnter specs emitted := by
  induction run with
  | nil => exact fun key p port => absurd port List.not_mem_nil
  | @plain within key parent taken taken' spec rest others closed after ih =>
      intro key' p port
      rw [Emitted.ids_append, Emitted.ids_plainNode]
      obtain own | later := List.mem_cons.mp port
      · cases own
        refine ⟨spec, ⟨[key], spec⟩, List.mem_cons_self, .here fun body embeds => ?_, ?_⟩
        · rw [closed] at embeds
          contradiction
        · exact (given_plain closed).mpr (.inl ⟨rfl, rfl⟩)
      · obtain ⟨spec', e, listed, enters, given⟩ := ih key' p later
        exact ⟨spec', e, .tail _ listed, enters, (given_plain closed).mpr (.inr given)⟩
  | @group within id key parent taken between taken' spec body inner ts rest others claimed embeds
      inside derived after ihInside ihAfter =>
      intro key' p port
      rw [Emitted.ids_append, Emitted.ids_group, ids_connect, List.cons_append]
      have split {e : Listed} {x : String} : Given ((key, spec) :: rest)
          (id :: (inner.ids ++ others.ids)) e x ↔ _ := given_group embeds inside.length_ids
      obtain own | later := List.mem_cons.mp port
      · cases own
        obtain ⟨e, enters, place⟩ := exists_enters_group inside embeds ihInside
        refine ⟨spec, e, List.mem_cons_self, enters, split.mpr ?_⟩
        obtain ⟨self, rfl⟩ | nested := place
        · exact .inl ⟨rfl, self⟩
        · exact .inr (.inl nested)
      · obtain ⟨spec', e, listed, enters, given⟩ := ihAfter key' p later
        exact ⟨spec', e, .tail _ listed, enters, split.mpr (.inr (.inr given))⟩

end

/-! ## The mark of the start -/

/-- A node with a mark if it is the entry. -/
def Node.marked (entry : Option String) (n : Node) : Node :=
  { n with isStart := decide (entry = some n.id) }

section

variable {nodes : List Node} {flow : Flow} {g inner : Graph} {taken taken' : List String}
variable {within : String} {parent : Option String} {specs : List (String × NodeSpec)}
variable {emitted : Emitted}

/-- An expansion marks nothing. -/
theorem Emits.unmarked (run : Emits within parent taken specs emitted taken') :
    ∀ n ∈ emitted.nodes, n.isStart = false := by
  induction run with
  | nil => exact fun n member => absurd member List.not_mem_nil
  | plain closed after ih => exact List.forall_mem_cons.mpr ⟨rfl, ih⟩
  | group claimed embeds inside derived after ihInside ihAfter =>
      exact List.forall_mem_cons.mpr ⟨rfl, List.forall_mem_append.mpr ⟨ihInside, ihAfter⟩⟩

theorem map_marked_of_not_mem {entry : Option String} (unmarked : ∀ n ∈ nodes, n.isStart = false)
    (other : ∀ n ∈ nodes, entry ≠ some n.id) : nodes.map (Node.marked entry) = nodes := by
  refine (List.map_congr_left fun n member => ?_).trans (List.map_id _)
  rw [Node.marked, decide_eq_false (other n member), ← unmarked n member]
  rfl

/-- Where identifiers differ, the first node with one is the only one. -/
theorem markStart_eq (id : String) (distinct : (nodes.map Node.id).Nodup)
    (unmarked : ∀ n ∈ nodes, n.isStart = false) :
    markStart id nodes = nodes.map (Node.marked (some id)) := by
  induction nodes with
  | nil => rfl
  | cons n rest ih =>
      obtain ⟨fresh, distinct⟩ := List.nodup_cons.mp distinct
      obtain ⟨own, others⟩ := List.forall_mem_cons.mp unmarked
      rw [markStart, List.map_cons, Node.marked]
      split
      · next here =>
          subst here
          rw [map_marked_of_not_mem others, decide_eq_true rfl]
          rintro n' later same
          exact fresh (Option.some.inj same ▸ List.mem_map_of_mem later)
      · next other =>
          rw [ih distinct others, decide_eq_false fun same => other (Option.some.inj same).symm,
            ← own]

theorem ofFlow_eq_marked (expanded : expand "" none [] flow = .ok (inner, taken))
    (distinct : inner.ids.Nodup) (unmarked : ∀ n ∈ inner.nodes, n.isStart = false)
    (named : inner.entry ≠ some "") :
    ofFlow flow = .ok { inner with nodes := inner.nodes.map (Node.marked inner.entry) } := by
  change (expand "" none [] flow).bind _ = _
  rw [expanded]
  obtain ⟨nodes, edges, entry, exits⟩ := inner
  simp only [Except.bind]
  cases entry with
  | none =>
      rw [map_marked_of_not_mem unmarked fun n _ => Option.some_ne_none n.id ∘ Eq.symm]
      rfl
  | some id =>
      have filled : nonEmpty (some id) = some id := by simpa [nonEmpty] using named
      rw [filled, ← markStart_eq id distinct unmarked]

/-- Of nodes with different identifiers only the entry is marked. -/
theorem marked_ids {entry : Option String} (distinct : (nodes.map Node.id).Nodup)
    (known : ∀ id, entry = some id → id ∈ nodes.map Node.id) :
    ((nodes.map (Node.marked entry)).filter (·.isStart)).map Node.id = entry.toList := by
  have marks : ((nodes.map (Node.marked entry)).filter (·.isStart)).map Node.id =
      (nodes.map Node.id).filter fun id => decide (entry = some id) := by
    rw [List.filter_map, List.filter_map, List.map_map]
    rfl
  rw [marks]
  cases entry with
  | none => simp
  | some id =>
      have once : (nodes.map Node.id).filter (· = id) = [id] := by
        rw [List.filter_eq, List.count_eq_one_of_mem distinct (known id rfl)]
        rfl
      simpa [eq_comm] using once

end

/-! ## Graphs of flows -/

/-- A graph is entered at the node to which the starts of a flow lead, and only this node is
marked. -/
structure IsEntered (flow : Flow) (g : Graph) (rows : List Row) : Prop where
  entry : ∀ id, g.entry = some id ↔ ∃ r ∈ rows, Opens flow r.1 ∧ r.2.id = id
  closed : g.entry = none ↔
    ∀ key, flow.start.value? = some key → key = "" ∨ key ∉ flow.entries.names
  marked : (g.nodes.filter (·.isStart)).map Node.id = g.entry.toList

/-- Two graphs differ at most in where they are entered, and so do their layouts. -/
structure SameButEntry (g g' : Graph) : Prop where
  nodes : g.nodes.map Node.bare = g'.nodes.map Node.bare
  edges : g.edges = g'.edges
  exits : g.exits = g'.exits
  places : ∀ s, (g.laidOut s).nodes.map Node.bare = (g'.laidOut s).nodes.map Node.bare

section

variable {flow : Flow} {g g' : Graph} {rows : List Row} {parent : Option String}
variable {specs : List (String × NodeSpec)} {e : Listed} {x : String}

/-- A layout sees neither the mark of the start nor the entry. -/
theorem bare_laidOut (s : Spacing Float) (g : Graph) :
    (g.laidOut s).nodes.map Node.bare =
      List.zipWith put (g.nodes.map Node.bare)
        (placements s ((g.nodes.map Node.bare).map Node.item) g.arcs) := by
  have items : (g.nodes.map Node.bare).map Node.item = g.items := List.map_map
  rw [items, laidOut, List.map_zipWith, List.zipWith_map_left]
  rfl

theorem sameButEntry_of_bare (nodes : g.nodes.map Node.bare = g'.nodes.map Node.bare)
    (edges : g.edges = g'.edges) (exits : g.exits = g'.exits) : SameButEntry g g' where
  nodes := nodes
  edges := edges
  exits := exits
  places := fun s => by rw [bare_laidOut, bare_laidOut, nodes, arcs, arcs, edges]

/-- The rows of a scope show which identifiers its outline is given. -/
theorem Traverses.given_iff (h : Traverses parent specs rows) :
    Given specs (rowIds rows) e x ↔ ∃ r ∈ rows, r.1 = e ∧ r.2.id = x := by
  rw [Given, ← h.listed, rowIds, drawn, List.map_map, List.zip_map']
  simp

theorem Enters.exists_path_eq_cons {key : String} {spec : NodeSpec} (enters : Enters key spec e) :
    ∃ further, e.path = key :: further := by
  cases enters with
  | here => exact ⟨[], rfl⟩
  | inside => exact ⟨_, rfl⟩

/-- Nothing unnamed is entered. -/
theorem Opens.named (opens : Opens flow e) : e.path ≠ [""] := by
  obtain ⟨key, spec, starts, enters⟩ := opens
  obtain ⟨further, path⟩ := enters.exists_path_eq_cons
  rw [path]
  exact fun same => starts.filled (List.head_eq_of_cons_eq same)

/-- The way into the outermost scope is the node that it opens. -/
theorem Emits.entry_iff {emitted : Emitted} {ts : List Transition} {taken taken' : List String}
    {within : String} (run : Emits within parent taken flow.entries emitted taken')
    (keyed : Flow.Keyed flow) (traverses : Traverses parent flow.entries rows)
    (ids : rowIds rows = emitted.ids) :
    (connect emitted flow.start.value? ts).entry = some x ↔
      ∃ r ∈ rows, Opens flow r.1 ∧ r.2.id = x := by
  have opened {y : String} (entered : (connect emitted flow.start.value? ts).entry = some y) :
      ∃ r ∈ rows, Opens flow r.1 ∧ r.2.id = y := by
    obtain ⟨e, opens, given⟩ := exists_opens_of_entry run.portsEnter entered
    obtain ⟨r, member, rfl, same⟩ := traverses.given_iff.mp (ids ▸ given)
    exact ⟨r, member, opens, same⟩
  refine ⟨opened, ?_⟩
  rintro ⟨r, member, opens, rfl⟩
  cases entered : (connect emitted flow.start.value? ts).entry with
  | none =>
      obtain ⟨key, spec, starts, -⟩ := opens
      exact absurd starts ((entry_connect_eq_none_iff run run.portsEnter).mp entered key spec)
  | some y =>
      obtain ⟨r', member', opens', rfl⟩ := opened entered
      have paths := traverses.nodup_paths keyed.distinct fun entry listed _ =>
        keyed.embedded listed
      have same : r'.1.path = r.1.path := congrArg Listed.path (opens'.unique keyed opens)
      rw [List.inj_on_of_nodup_map paths member' member same]

/-- The graph of a flow is entered where the flow opens, at the node that has the mark. -/
theorem Emits.isEntered {emitted : Emitted} {ts : List Transition} {taken : List String}
    (run : Emits "" none [] flow.entries emitted taken) (keyed : Flow.Keyed flow)
    (expanded : expand "" none [] flow = .ok (connect emitted flow.start.value? ts, taken))
    (h : ofFlow flow = .ok g) (same : g.entry = (connect emitted flow.start.value? ts).entry)
    (traverses : Traverses none flow.entries rows) (ids : rowIds rows = emitted.ids)
    (named : NamedExcept "" [] rows) : IsEntered flow g rows := by
  have entry {id : String} : g.entry = some id ↔ ∃ r ∈ rows, Opens flow r.1 ∧ r.2.id = id :=
    same ▸ run.entry_iff keyed traverses ids
  refine ⟨fun id => entry, ?_, ?_⟩
  · rw [same, entry_connect_eq_none_iff run run.portsEnter, forall_not_startsAt_iff]
  · have filled : g.entry ≠ some "" := by
      intro entered
      obtain ⟨r, member, opens, empty⟩ := entry.mp entered
      exact opens.named ((named r member).mp empty).2.1
    have known : ∀ id, g.entry = some id → id ∈ emitted.ids := by
      intro id entered
      obtain ⟨r, member, -, rfl⟩ := entry.mp entered
      exact ids ▸ List.mem_map_of_mem (List.mem_map_of_mem member)
    have made := ofFlow_eq_marked expanded run.nodup_ids run.unmarked (same ▸ filled)
    obtain rfl := Except.ok.inj (h.symm.trans made)
    exact marked_ids run.nodup_ids known

end

/-- The entry of a graph is the node to which the start of the outermost scope leads, through the
starts of the scopes inside, and it is the only node that is marked. Another start changes nothing
but the mark. -/
theorem ofFlow_start {flow : Flow} {g : Graph} (keyed : Flow.Keyed flow)
    (h : ofFlow flow = .ok g) :
    ∃ rows, IsPreorder flow g rows ∧ (rows.map fun r => r.1.path).Nodup ∧ IsEntered flow g rows ∧
      ∀ start, ∃ g', ofFlow { flow with start } = .ok g' ∧ SameButEntry g g' := by
  obtain ⟨inner, taken, expanded, like⟩ := exists_expand_of_ofFlow h
  have distinct : g.ids.Nodup := (isForest_of_ofFlow h).distinct
  obtain ⟨emitted, ts, run, derived, rfl⟩ := expand_eq_ok_iff.mp expanded
  obtain ⟨rows, traverses, nodes, named⟩ := run.exists_rows like.nodes
  refine ⟨rows, traverses.isPreorder nodes distinct, ?_, ?_, fun start => ?_⟩
  · exact traverses.nodup_paths keyed.distinct fun entry listed _ => keyed.embedded listed
  · have ids : rowIds rows = emitted.ids := (congrArg (List.map Node.id) nodes).trans like.ids
    exact run.isEntered keyed expanded h like.entry traverses ids (named keyed.distinct)
  · have again : expand "" none [] { flow with start } =
        .ok (connect emitted start.value? ts, taken) :=
      expand_eq_ok_iff.mpr ⟨emitted, ts, run, derived, rfl⟩
    obtain ⟨g', made, like'⟩ := exists_ofFlow again
    refine ⟨g', made, sameButEntry_of_bare ?_ (like.edges.trans like'.edges.symm)
      (like.exits.trans like'.exits.symm)⟩
    exact like.nodes.trans like'.nodes.symm

/-- A flow whose start leads through one group into another one, which has no start. -/
def descending : Flow where
  start := .given "order"
  nodes := .given [
    ("pay", {}),
    ("order", {
      others := [("kind", .str "subflow")]
      subflow := .given {
        start := .given "pick"
        nodes := .given [
          ("pick", {
            others := [("kind", .str "subflow")]
            subflow := .given { nodes := .given [("scan", {})] } })] } })]

theorem keyed_descending : Flow.Keyed descending := by
  refine .intro (by decide) (List.forall_mem_singleton.mpr ?_)
  refine .intro (by decide) (List.forall_mem_singleton.mpr ?_)
  exact .intro (by decide) fun body held => absurd held List.not_mem_nil

/-- It is entered at the inner group, and with the start `pay` at the first node. -/
theorem ofFlow_start_descending :
    ∃ g rows, ofFlow descending = .ok g ∧ g.entry = some "order_pick" ∧
      (g.nodes.filter (·.isStart)).map Node.id = ["order_pick"] ∧ IsEntered descending g rows ∧
      ∃ g', ofFlow { descending with start := .given "pay" } = .ok g' ∧ g'.entry = some "pay" ∧
        SameButEntry g g' := by
  obtain ⟨rows, -, -, entered, again⟩ := ofFlow_start keyed_descending rfl
  obtain ⟨g', made, same⟩ := again (.given "pay")
  refine ⟨_, rows, rfl, rfl, rfl, entered, g', made, ?_, same⟩
  cases made
  rfl

end FlowDiagram.Graph
