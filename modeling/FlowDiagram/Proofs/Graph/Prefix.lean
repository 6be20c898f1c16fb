import FlowDiagram.Proofs.Graph.Coherence
/-!
# Expanding a flow inside a group

A flow that is expanded inside a group gives what it gives by itself, with the name of the
group before every identifier. The keys are qualified, so collisions fall out the same way and
are numbered the same way, and repeated links stay repeated (`expand_inside`).

There is one exception. A group in the outermost scope whose key is empty has the empty
identifier, which is no name, so its nodes stand as if there was no group. Inside a named
group it has a name.

Renaming goes through every operation of the expansion by itself; what is special about a
prefix is only that it can be put before a qualified key and before a number.
-/

namespace FlowDiagram.Graph

open Definition Transition Json

/-! ## Renaming -/

section

variable (ρ : String → String) (outer : Option String)

/-- A node under another name, with the group around it renamed too. What is outermost comes
to lie in another place. -/
def Node.renamed (node : Node) : Node :=
  { node with
    id := ρ node.id
    parent := node.parent.elim outer (some ∘ ρ) }

def Link.renamed (l : Link) : Link := ⟨ρ l.source, ρ l.target, l.label⟩

def Ports.renamed (p : Ports) : Ports := ⟨ρ p.entry, p.exits.map ρ⟩

/-- The ports of a scope under their keys, which stay. -/
def renamedPorts (ports : Entries Ports) : Entries Ports :=
  ports.map fun entry => (entry.1, entry.2.renamed ρ)

/-- One graph is another one renamed, up to the identifiers of edges. -/
structure Renamed (g g' : Graph) : Prop where
  nodes : g'.nodes = g.nodes.map (Node.renamed ρ outer)
  links : g'.links = g.links.map (Link.renamed ρ)
  entry : g'.entry = g.entry.map ρ
  exits : g'.exits = g.exits.map ρ

structure Emitted.Renamed (emitted emitted' : Emitted) : Prop where
  nodes : emitted'.nodes = emitted.nodes.map (Node.renamed ρ outer)
  links : emitted'.links = emitted.links.map (Link.renamed ρ)
  ports : emitted'.ports = renamedPorts ρ emitted.ports

end

section

variable {ρ : String → String} {outer parent : Option String} {a a' b b' emitted emitted' : Emitted}
variable {id key : String} {spec : NodeSpec}

theorem Link.renamed_injective (injective : Function.Injective ρ) :
    Function.Injective (Link.renamed ρ) := by
  rintro ⟨source, target, label⟩ ⟨source', target', label'⟩ same
  simp only [Link.renamed, Link.mk.injEq] at same ⊢
  exact ⟨injective same.1, injective same.2.1, same.2.2⟩

/-! ### The operations of the expansion -/

namespace Emitted.Renamed

theorem empty : Emitted.Renamed ρ outer {} {} := ⟨rfl, rfl, rfl⟩

theorem append (first : a.Renamed ρ outer a') (second : b.Renamed ρ outer b') :
    (a.append b).Renamed ρ outer (a'.append b') where
  nodes := by rw [nodes_append, nodes_append, first.nodes, second.nodes, List.map_append]
  links := by rw [links_append, links_append, first.links, second.links, List.map_append]
  ports := by
    rw [ports_append, ports_append, first.ports, second.ports]
    exact List.map_append.symm

theorem plainNode :
    (plainNode parent id key spec).Renamed ρ outer
      (plainNode (parent.elim outer (some ∘ ρ)) (ρ id) key spec) :=
  ⟨rfl, rfl, rfl⟩

/-- A group is renamed with its scope, if no way into the scope has the empty name. -/
theorem group {inner inner' : Graph} (inside : Graph.Renamed ρ outer inner inner')
    (named : inner.entry ≠ some "") (kept : ∀ x, x ≠ "" → ρ x ≠ "") :
    (group parent id key spec inner).Renamed ρ outer
      (group (parent.elim outer (some ∘ ρ)) (ρ id) key spec inner') where
  nodes := by
    rw [Graph.group, Graph.group, inside.nodes]
    rfl
  links := inside.links
  ports := by
    have keep {x : String} (some_name : x ≠ "") : nonEmpty (some x) = some x :=
      Option.filter_some_pos (by simpa using some_name)
    have entry : nonEmpty inner'.entry = (nonEmpty inner.entry).map ρ := by
      rw [inside.entry]
      cases way : inner.entry with
      | none => rfl
      | some x =>
          have some_name : x ≠ "" := fun empty => named (way.trans (congrArg some empty))
          rw [keep some_name]
          exact keep (kept x some_name)
    rw [Graph.group, Graph.group, inside.exits, entry]
    cases nonEmpty inner.entry <;> cases inner.exits <;> rfl

end Emitted.Renamed

theorem bind_get?_renamedPorts (ports : Entries Ports) (key? : Option String) :
    key?.bind (renamedPorts ρ ports).get? = (key?.bind ports.get?).map (Ports.renamed ρ) := by
  cases key? with
  | none => rfl
  | some key => exact Entries.get?_map (Ports.renamed ρ) ports key

theorem attached?_renamedPorts (ports : Entries Ports) (t : Transition) :
    attached? (renamedPorts ρ ports) t =
      (attached? ports t).map fun ends => (ends.1.renamed ρ, ends.2.renamed ρ) := by
  rw [attached?, attached?, bind_get?_renamedPorts, bind_get?_renamedPorts]
  cases t.source.bind ports.get? <;> cases t.target.bind ports.get? <;> rfl

theorem linksOf_renamedPorts (ports : Entries Ports) (t : Transition) :
    linksOf (renamedPorts ρ ports) t = (linksOf ports t).map (Link.renamed ρ) := by
  rw [linksOf, linksOf, attached?_renamedPorts]
  cases attached? ports t with
  | none => rfl
  | some ends => simp [Ports.renamed, Link.renamed, Function.comp_def]

theorem leaves_renamedPorts (ports : Entries Ports) (key : String) (t : Transition) :
    leaves (renamedPorts ρ ports) key t = leaves ports key t := by
  rw [leaves, leaves, attached?_renamedPorts, Option.isSome_map]

/-- Connecting a scope goes along with renaming, which takes different links to different
links. -/
theorem Emitted.Renamed.connect (emits : Emitted.Renamed ρ outer emitted emitted')
    (injective : Function.Injective ρ) (start : Option String) (ts : List Transition) :
    Graph.Renamed ρ outer (connect emitted start ts) (connect emitted' start ts) where
  nodes := emits.nodes
  links := by
    have links : ts.flatMap (linksOf (renamedPorts ρ emitted.ports)) =
        (ts.flatMap (linksOf emitted.ports)).map (Link.renamed ρ) := by
      rw [List.map_flatMap]
      exact congrArg (List.flatMap · ts) (funext (linksOf_renamedPorts emitted.ports))
    rw [links_connect, links_connect, links_scopeEdges, links_scopeEdges, emits.links,
      emits.ports, links, eraseDups_map (Link.renamed_injective injective), List.map_append]
  entry := by
    change entryOf emitted'.ports start = (entryOf emitted.ports start).map ρ
    rw [entryOf, entryOf, emits.ports, bind_get?_renamedPorts, Option.map_map, Option.map_map]
    rfl
  exits := by
    change exitsOf emitted'.ports ts = (exitsOf emitted.ports ts).map ρ
    have each (entry : String × Ports) :
        (if ts.any (leaves (renamedPorts ρ emitted.ports) entry.1) then []
            else (entry.2.renamed ρ).exits) =
          (if ts.any (leaves emitted.ports entry.1) then [] else entry.2.exits).map ρ := by
      rw [funext (leaves_renamedPorts emitted.ports entry.1)]
      split <;> rfl
    rw [exitsOf, exitsOf, emits.ports, List.map_flatMap]
    exact (List.flatMap_map ..).trans (congrArg (List.flatMap · emitted.ports) (funext each))

end

/-! ## Prefixes -/

/-- A name behind the name of a group. -/
def prefixed (p name : String) : String := p ++ "_" ++ name

section

variable {p within within' name : String} {taken : List String}

theorem prefixed_injective (p : String) : Function.Injective (prefixed p) :=
  fun _ _ same => (String.append_right_inj _).mp same

theorem prefixed_ne_empty (p name : String) : prefixed p name ≠ "" := by simp [prefixed]

theorem numbered_prefixed (p name : String) (n : Nat) :
    numbered (prefixed p name) n = prefixed p (numbered name n) := by
  simp [numbered, prefixed, String.append_assoc]

theorem mem_map_prefixed : prefixed p name ∈ taken.map (prefixed p) ↔ name ∈ taken :=
  List.mem_map_of_injective (prefixed_injective p)

theorem firstFree_prefixed (tries n : Nat) :
    firstFree (taken.map (prefixed p)) (prefixed p name) tries n = firstFree taken name tries n := by
  induction tries generalizing n with
  | zero => rfl
  | succ tries ih => simp only [firstFree, numbered_prefixed, mem_map_prefixed, ih]

/-- A collision is resolved behind a prefix as it is without. -/
theorem claim_prefixed (p name : String) (taken : List String) :
    claim (taken.map (prefixed p)) (prefixed p name) = prefixed p (claim taken name) := by
  simp only [claim, mem_map_prefixed, List.length_map, firstFree_prefixed, numbered_prefixed]
  split <;> rfl

/-- Keys are qualified in one place as in another, behind a prefix. -/
def Shifts (p within within' : String) : Prop :=
  ∀ key, qualify within' key = prefixed p (qualify within key)

/-- The outermost scope comes to lie in a group. -/
theorem shifts_outermost (named : p ≠ "") : Shifts p "" p := by
  intro key
  rw [qualify, if_neg (by simpa using named)]
  rfl

theorem shifts_inside (named : within ≠ "") : Shifts p within (prefixed p within) := by
  intro key
  rw [qualify, if_neg (by simpa using prefixed_ne_empty p within), qualify,
    if_neg (by simpa using named)]
  simp [prefixed, String.append_assoc]

end

/-! ## Expansion behind a prefix -/

/-- One graph is another one behind a prefix, and so are the identifiers that are taken. -/
def Behind (p : String) (outer : Option String) (out out' : Expanded) : Prop :=
  Renamed (prefixed p) outer out.1 out'.1 ∧ out'.2 = out.2.map (prefixed p)

def Emitted.Behind (p : String) (outer : Option String) (out out' : Emitted × List String) : Prop :=
  out.1.Renamed (prefixed p) outer out'.1 ∧ out'.2 = out.2.map (prefixed p)

section

variable {p within within' : String} {outer parent parent' : Option String}
variable {taken taken' : List String} {flow : Flow} {g : Graph}

/-- A scope expands as its nodes are emitted. -/
theorem expand_behind
    (emits : SameOutcome (Emitted.Behind p outer) (emit within parent taken flow.entries)
      (emit within' parent' taken' flow.entries)) :
    SameOutcome (Behind p outer) (expand within parent taken flow)
      (expand within' parent' taken' flow) := by
  rw [expand_eq, expand_eq]
  refine emits.bind fun out out' _ behind => ?_
  cases ofScope flow with
  | error e => exact .error e
  | ok ts => exact .ok ⟨behind.1.connect (prefixed_injective p) _ ts, behind.2⟩

theorem entry_ne_empty (named : within ≠ "")
    (expanded : expand within parent taken flow = .ok (g, taken')) : g.entry ≠ some "" := by
  obtain ⟨emitted, ts, run, -, rfl⟩ := expand_eq_ok_iff.mp expanded
  intro entered
  obtain ⟨key, port, member, empty⟩ := entry_connect emitted _ entered
  have known := run.coherent.entry_mem "" (Emitted.mem_entries.mpr ⟨key, port, member, empty⟩)
  exact run.ne_empty named "" known rfl

/-- The nodes of a scope are emitted behind a prefix as they are without, if every group among
them has a name. -/
theorem emit_behind (parent : Option String) (taken : List String)
    {specs : List (String × NodeSpec)} (shifts : Shifts p within within')
    (named : ∀ entry ∈ specs, entry.2.embedded? ≠ none → qualify within entry.1 ≠ "") :
    SameOutcome (Emitted.Behind p outer) (emit within parent taken specs)
      (emit within' (parent.elim outer (some ∘ prefixed p)) (taken.map (prefixed p)) specs) := by
  induction specs using nestedInduction generalizing within within' parent taken with
  | nil => exact .ok ⟨.empty, rfl⟩
  | plain key spec rest closed ih =>
      rw [emit_plain closed, emit_plain closed, shifts key, claim_prefixed]
      refine (ih parent (_ :: taken) shifts fun entry later => named entry (.tail _ later)).bind ?_
      intro out out' _ behind
      exact .ok ⟨.append .plainNode behind.1, behind.2⟩
  | group key spec rest body embeds ihInside ihAfter =>
      have own : claim taken (qualify within key) ≠ "" :=
        claim_ne_empty _ (named _ List.mem_cons_self (by simp [embeds]))
      rw [emit_group embeds, emit_group embeds, shifts key, claim_prefixed]
      -- Of the place around it a scope sees only the identifier of its group.
      generalize claim taken (qualify within key) = id at own ⊢
      have inside := ihInside (some id) (id :: taken) (shifts_inside own) fun entry _ _ =>
        qualify_ne_empty own entry.1
      refine (expand_behind inside).bind ?_
      rintro ⟨inner, between⟩ ⟨inner', _⟩ expanded ⟨scope, rfl⟩
      have after := ihAfter parent between shifts fun entry later => named entry (.tail _ later)
      refine after.bind ?_
      rintro ⟨others, last⟩ ⟨others', _⟩ _ ⟨rest, rfl⟩
      refine .ok ⟨.append (.group scope (entry_ne_empty own expanded) ?_) rest, rfl⟩
      exact fun x _ => prefixed_ne_empty p x

end

/-- If no group of the outermost scope has the empty key, a flow expands inside a group to what
it expands to by itself, behind the name of the group and with its outermost nodes in any
place, or both fail alike. -/
theorem expand_inside {p : String} (named : p ≠ "") (outer : Option String) {flow : Flow}
    (closed : ∀ spec, ("", spec) ∈ flow.entries → spec.embedded? = none) :
    SameOutcome (Behind p outer) (expand "" none [] flow) (expand p outer [] flow) := by
  refine expand_behind (emit_behind none [] (shifts_outermost named) ?_)
  rintro ⟨key, spec⟩ member embeds empty
  obtain rfl : key = "" := empty
  exact embeds (closed spec member)

/-- The flow in which a review is repeated, inside a group. The identifier that collides gets
the same number, and the way into the inner group stays where it is. -/
theorem expand_inside_reviewing :
    ∃ out out', expand "" none [] reviewing = .ok out ∧
      expand "app" (some "app") [] reviewing = .ok out' ∧ Behind "app" (some "app") out out' ∧
      out.1.ids = ["fetch", "review", "review_draft", "review_check", "review_check_pass",
        "review_check_fail", "review_draft_2"] ∧
      out'.1.ids = ["app_fetch", "app_review", "app_review_draft", "app_review_check",
        "app_review_check_pass", "app_review_check_fail", "app_review_draft_2"] := by
  have closed : ∀ spec, ("", spec) ∈ reviewing.entries → spec.embedded? = none := by
    simp [reviewing, Scope.entries, Slot.value?]
  have named : "app" ≠ "" := by decide
  obtain ⟨out', expanded, behind⟩ := (expand_inside named (some "app") closed).exists_of_ok rfl
  refine ⟨_, out', rfl, expanded, behind, rfl, ?_⟩
  cases expanded
  rfl

end FlowDiagram.Graph
