import FlowDiagram.Graph.Expansion
import FlowDiagram.Proofs.Definition.Keys
import FlowDiagram.Proofs.Graph.Claiming
import FlowDiagram.Proofs.Outcomes
/-!
# Emission as a relation

`Emits within parent taken specs emitted taken'` records one pass over the nodes of a
scope: which identifier each key claims, what the scope inside a group emits, and how the
parts follow each other. It has one rule for each thing that a pass can do, and nothing in
it can fail.

`expand_eq_ok_iff` proves that expansion succeeds exactly along such a pass, so that what
holds of every expansion is proved by induction on the pass.
-/

namespace FlowDiagram.Graph

open Definition Transition Json

variable {within id key : String} {parent : Option String} {taken taken' : List String}
variable {spec : NodeSpec} {rest : List (String × NodeSpec)} {flow body : Flow}

/-! ## Equations of the expansion -/

theorem expand_eq (within : String) (parent : Option String) (taken : List String)
    (flow : Flow) :
    expand within parent taken flow =
      (emit within parent taken flow.entries).bind fun (emitted, taken) =>
        (ofScope flow).bind fun ts => .ok (connect emitted flow.start.value? ts, taken) := by
  obtain ⟨start, nodes, edges, others⟩ := flow
  cases nodes <;> rfl

theorem expandInside_eq (id : String) (taken : List String) (spec : NodeSpec) :
    expandInside id taken spec =
      match spec.embedded? with
      | some body => (expand id (some id) taken body).map some
      | none => .ok none := by
  obtain ⟨post, cases', defaultAction, subflow, others⟩ := spec
  rw [expandInside, NodeSpec.embedded?]
  split
  · cases subflow <;> rfl
  · rfl

theorem emit_plain (closed : spec.embedded? = none) :
    emit within parent taken ((key, spec) :: rest) =
      let id := claim taken (qualify within key)
      (emit within parent (id :: taken) rest).bind fun (others, taken) =>
        .ok ((plainNode parent id key spec).append others, taken) := by
  rw [emit, expandInside_eq, closed]
  rfl

theorem emit_group (embeds : spec.embedded? = some body) :
    emit within parent taken ((key, spec) :: rest) =
      let id := claim taken (qualify within key)
      (expand id (some id) (id :: taken) body).bind fun (inner, taken) =>
        (emit within parent taken rest).bind fun (others, taken) =>
          .ok ((group parent id key spec inner).append others, taken) := by
  rw [emit, expandInside_eq, embeds]
  simp only [bind, Except.bind, Except.map]
  cases expand (claim taken (qualify within key)) (some (claim taken (qualify within key)))
    (claim taken (qualify within key) :: taken) body <;> rfl

/-! ## The relation -/

/-- A pass over the nodes of a scope, from the identifiers taken before it to those taken
after it. -/
inductive Emits : String → Option String → List String → List (String × NodeSpec) →
    Emitted → List String → Prop
  | nil {within : String} {parent : Option String} {taken : List String} :
      Emits within parent taken [] {} taken
  | plain {within key : String} {parent : Option String} {taken taken' : List String}
      {spec : NodeSpec} {rest : List (String × NodeSpec)} {others : Emitted}
      (closed : spec.embedded? = none)
      (after : Emits within parent (claim taken (qualify within key) :: taken) rest others taken') :
      Emits within parent taken ((key, spec) :: rest)
        ((plainNode parent (claim taken (qualify within key)) key spec).append others) taken'
  | group {within id key : String} {parent : Option String} {taken between taken' : List String}
      {spec : NodeSpec} {body : Flow} {inner : Emitted} {ts : List Transition}
      {rest : List (String × NodeSpec)} {others : Emitted}
      (claimed : claim taken (qualify within key) = id)
      (embeds : spec.embedded? = some body)
      (inside : Emits id (some id) (id :: taken) body.entries inner between)
      (derived : ofScope body = .ok ts)
      (after : Emits within parent between rest others taken') :
      Emits within parent taken ((key, spec) :: rest)
        ((group parent id key spec (connect inner body.start.value? ts)).append others) taken'

theorem emit_of_emits {specs : List (String × NodeSpec)} {emitted : Emitted}
    (run : Emits within parent taken specs emitted taken') :
    emit within parent taken specs = .ok (emitted, taken') := by
  induction run with
  | nil => rfl
  | plain closed after ih =>
      rw [emit_plain closed]
      simp only [ih, Except.bind]
  | group claimed embeds inside derived after ihInside ihAfter =>
      subst claimed
      rw [emit_group embeds]
      simp only [expand_eq, ihInside, derived, ihAfter, Except.bind]

theorem emits_of_emit {specs : List (String × NodeSpec)} {emitted : Emitted}
    (h : emit within parent taken specs = .ok (emitted, taken')) :
    Emits within parent taken specs emitted taken' := by
  induction specs using nestedInduction generalizing within parent taken emitted taken' with
  | nil =>
      cases h
      exact .nil
  | plain key spec rest closed ih =>
      rw [emit_plain closed] at h
      obtain ⟨⟨others, last⟩, after, h⟩ := bind_eq_ok_iff.mp h
      cases h
      exact .plain closed (ih after)
  | group key spec rest body embeds ihInside ihAfter =>
      rw [emit_group embeds] at h
      obtain ⟨⟨inner, between⟩, expanded, h⟩ := bind_eq_ok_iff.mp h
      obtain ⟨⟨others, last⟩, after, h⟩ := bind_eq_ok_iff.mp h
      cases h
      rw [expand_eq] at expanded
      obtain ⟨⟨emitted, between'⟩, inside, expanded⟩ := bind_eq_ok_iff.mp expanded
      obtain ⟨ts, derived, expanded⟩ := bind_eq_ok_iff.mp expanded
      cases expanded
      exact .group rfl embeds (ihInside inside) derived (ihAfter after)

/-- Expansion succeeds exactly where a pass over the nodes does and the transitions of the
scope can be derived, and its graph connects what the pass emits. -/
theorem expand_eq_ok_iff {g : Graph} :
    expand within parent taken flow = .ok (g, taken') ↔
      ∃ emitted ts, Emits within parent taken flow.entries emitted taken' ∧
        ofScope flow = .ok ts ∧ g = connect emitted flow.start.value? ts := by
  rw [expand_eq]
  constructor
  · intro h
    obtain ⟨⟨emitted, last⟩, run, h⟩ := bind_eq_ok_iff.mp h
    obtain ⟨ts, derived, h⟩ := bind_eq_ok_iff.mp h
    cases h
    exact ⟨emitted, ts, emits_of_emit run, derived, rfl⟩
  · rintro ⟨emitted, ts, run, derived, rfl⟩
    simp only [emit_of_emits run, derived, Except.bind]

/-! ## Success -/

/-- The transitions of a flow and of every scope that it embeds can be derived. Only the
label of a case can prevent this. -/
inductive Derivable : Flow → Prop where
  | intro {flow : Flow} {ts : List Transition} (own : ofScope flow = .ok ts)
      (inside : ∀ entry ∈ flow.entries, ∀ body, entry.2.embedded? = some body →
        Derivable body) : Derivable flow

theorem Emits.derivable {specs : List (String × NodeSpec)} {emitted : Emitted}
    (run : Emits within parent taken specs emitted taken') :
    ∀ entry ∈ specs, ∀ body, entry.2.embedded? = some body → Derivable body := by
  induction run with
  | nil => exact fun entry member => absurd member List.not_mem_nil
  | plain closed after ih =>
      intro entry member body embeds
      obtain rfl | later := List.mem_cons.mp member
      · rw [closed] at embeds
        contradiction
      · exact ih entry later body embeds
  | group claimed embeds inside derived after ihInside ihAfter =>
      intro entry member body' embeds'
      obtain rfl | later := List.mem_cons.mp member
      · obtain rfl := Option.some.inj (embeds.symm.trans embeds')
        exact .intro derived ihInside
      · exact ihAfter entry later body' embeds'

theorem exists_emits {specs : List (String × NodeSpec)}
    (derivable : ∀ entry ∈ specs, ∀ body, entry.2.embedded? = some body → Derivable body) :
    ∃ emitted taken', Emits within parent taken specs emitted taken' := by
  induction specs using nestedInduction generalizing within parent taken with
  | nil => exact ⟨{}, taken, .nil⟩
  | plain key spec rest closed ih =>
      obtain ⟨others, taken', after⟩ := ih fun entry later => derivable entry (.tail _ later)
      exact ⟨_, taken', .plain closed after⟩
  | group key spec rest body embeds ihInside ihAfter =>
      obtain ⟨derived, nested⟩ := derivable _ List.mem_cons_self body embeds
      obtain ⟨inner, between, inside⟩ := ihInside nested
      obtain ⟨others, taken', after⟩ := ihAfter fun entry later => derivable entry (.tail _ later)
      exact ⟨_, taken', .group rfl embeds inside derived after⟩

/-- Expansion gives a graph exactly for derivable flows. Neither the identifiers that are
taken nor the place of the scope can make it fail. -/
theorem exists_expand_iff :
    (∃ g taken', expand within parent taken flow = .ok (g, taken')) ↔ Derivable flow := by
  constructor
  · rintro ⟨g, taken', h⟩
    obtain ⟨emitted, ts, run, derived, -⟩ := expand_eq_ok_iff.mp h
    exact .intro derived run.derivable
  · rintro ⟨derived, inside⟩
    obtain ⟨emitted, taken', run⟩ := exists_emits inside
    exact ⟨_, taken', expand_eq_ok_iff.mpr ⟨emitted, _, run, derived, rfl⟩⟩

/-! ## Identifiers of what is emitted -/

namespace Emitted

/-- The identifiers of the emitted nodes in order. -/
def ids (emitted : Emitted) : List String := emitted.nodes.map Node.id

@[simp] theorem ids_empty : ids {} = [] := rfl

@[simp] theorem ids_append (a b : Emitted) : (a.append b).ids = a.ids ++ b.ids :=
  List.map_append

@[simp] theorem ids_plainNode (parent : Option String) (id key : String) (spec : NodeSpec) :
    (plainNode parent id key spec).ids = [id] := rfl

@[simp] theorem ids_group (parent : Option String) (id key : String) (spec : NodeSpec)
    (inner : Graph) : (group parent id key spec inner).ids = id :: inner.ids := rfl

end Emitted

@[simp] theorem ids_connect (emitted : Emitted) (start : Option String)
    (ts : List Transition) : (connect emitted start ts).ids = emitted.ids := rfl

namespace Emits

variable {specs : List (String × NodeSpec)} {emitted : Emitted}

/-- A pass takes what it emits, the latest first, and nothing else. -/
theorem taken_eq (run : Emits within parent taken specs emitted taken') :
    taken' = emitted.ids.reverse ++ taken := by
  induction run with
  | nil => rfl
  | plain closed after ih => simp [ih]
  | group claimed embeds inside derived after ihInside ihAfter => simp [ihInside, ihAfter]

theorem not_mem_taken (run : Emits within parent taken specs emitted taken') :
    ∀ x ∈ emitted.ids, x ∉ taken := by
  induction run with
  | nil => exact fun x member => absurd member List.not_mem_nil
  | @plain within key parent taken taken' spec rest others closed after ih =>
      intro x member old
      rw [Emitted.ids_append, Emitted.ids_plainNode] at member
      obtain rfl | later := List.mem_cons.mp member
      · exact claim_not_mem _ _ old
      · exact ih x later (List.mem_cons_of_mem _ old)
  | group claimed embeds inside derived after ihInside ihAfter =>
      intro x member old
      rw [Emitted.ids_append, Emitted.ids_group, ids_connect] at member
      obtain here | later := List.mem_append.mp member
      · obtain rfl | inner := List.mem_cons.mp here
        · exact claim_not_mem _ _ (claimed ▸ old)
        · exact ihInside x inner (List.mem_cons_of_mem _ old)
      · refine ihAfter x later ?_
        rw [inside.taken_eq]
        exact List.mem_append_right _ (List.mem_cons_of_mem _ old)

/-- What is taken just before a pass is not emitted by it. -/
theorem head_not_mem (run : Emits within parent (id :: taken) specs emitted taken') :
    id ∉ emitted.ids :=
  fun again => run.not_mem_taken id again List.mem_cons_self

/-- What follows a group is emitted after the group and its whole scope are taken. -/
theorem disjoint_after {scope within : String} {between : List String}
    {outer : Option String} {inner others : Emitted}
    (inside : Emits scope outer (id :: taken) specs inner between)
    (after : Emits within parent between rest others taken') :
    List.Disjoint (id :: inner.ids) others.ids := by
  intro x here later
  refine after.not_mem_taken x later ?_
  rw [inside.taken_eq, List.mem_append, List.mem_reverse, List.mem_cons]
  exact (List.mem_cons.mp here).elim (fun same => .inr (.inl same)) .inl

theorem nodup_ids (run : Emits within parent taken specs emitted taken') :
    emitted.ids.Nodup := by
  induction run with
  | nil => exact List.nodup_nil
  | plain closed after ih =>
      rw [Emitted.ids_append, Emitted.ids_plainNode]
      exact List.nodup_cons.mpr ⟨after.head_not_mem, ih⟩
  | group claimed embeds inside derived after ihInside ihAfter =>
      rw [Emitted.ids_append, Emitted.ids_group, ids_connect]
      have distinct := List.nodup_cons.mpr ⟨inside.head_not_mem, ihInside⟩
      exact List.nodup_append'.mpr ⟨distinct, ihAfter, inside.disjoint_after after⟩

/-- Inside a group with a name nothing has the empty identifier. -/
theorem ne_empty (run : Emits within parent taken specs emitted taken')
    (named : within ≠ "") : ∀ x ∈ emitted.ids, x ≠ "" := by
  induction run with
  | nil => exact fun x member => absurd member List.not_mem_nil
  | plain closed after ih =>
      intro x member
      obtain rfl | later := List.mem_cons.mp member
      · exact claim_ne_empty _ (qualify_ne_empty named _)
      · exact ih named x later
  | group claimed embeds inside derived after ihInside ihAfter =>
      have own := claimed ▸ claim_ne_empty _ (qualify_ne_empty named _)
      intro x member
      rw [Emitted.ids_append, Emitted.ids_group, ids_connect] at member
      obtain here | later := List.mem_append.mp member
      · obtain rfl | nested := List.mem_cons.mp here
        · exact own
        · exact ihInside own x nested
      · exact ihAfter named x later

end Emits

/-! ## A flow with two nested scopes -/

/-- A flow in which a review is repeated until it is done. The key `review_draft` looks
like the qualified key `draft` of the group `review`, and the inner group `check` has no
start and two ends. -/
def reviewing : Flow where
  start := .given "fetch"
  nodes := .given [
    ("fetch", {}),
    ("review", {
      others := [("kind", .str "subflow")]
      subflow := .given {
        start := .given "draft"
        nodes := .given [
          ("draft", {}),
          ("check", {
            others := [("kind", .str "subflow")]
            subflow := .given { nodes := .given [("pass", {}), ("fail", {})] } })]
        edges := .given [{ source := .given "draft", target := .given "check" }] } }),
    ("review_draft", {})]
  edges := .given [
    { source := .given "fetch", target := .given "review" },
    { source := .given "review", target := .given "review", action := .given "again" },
    { source := .given "review", target := .given "review_draft", action := .given "done" },
    { source := .given "review_draft", target := .given "archive" }]

theorem keyed_reviewing : Flow.Keyed reviewing := by
  refine .intro (by decide) (List.forall_mem_singleton.mpr ?_)
  refine .intro (by decide) (List.forall_mem_singleton.mpr ?_)
  exact .intro (by decide) fun body held => absurd held List.not_mem_nil

end FlowDiagram.Graph
