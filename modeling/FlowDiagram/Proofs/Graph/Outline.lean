import FlowDiagram.Proofs.Definition.Keys
/-!
# Outlines

The outline of a flow lists its nodes and those of all scopes inside them, each under the keys
that lead to it and in front of whatever is inside it. It lists just what can be reached from the
outermost scope (`mem_outline_iff`), and under each path once if no scope repeats a key
(`nodup_paths_outline`).
-/

namespace FlowDiagram.Graph

open Definition Document

/-! ## Outlines -/

/-- A node of a flow with the keys that lead to it, the outermost first. -/
structure Listed where
  path : List String
  spec : NodeSpec

/-- The same node, seen from further out. -/
def Listed.below (path : List String) (e : Listed) : Listed := { e with path := path ++ e.path }

/-- The nodes of a scope and of all scopes that they embed, each in front of what is inside it. -/
def outline : List (String × NodeSpec) → List Listed
  | [] => []
  | (key, spec) :: rest =>
      ⟨[key], spec⟩ ::
        ((match _ : spec.embedded? with
          | some body => (outline body.entries).map (Listed.below [key])
          | none => []) ++ outline rest)
termination_by specs => sizeOf specs
decreasing_by
  · have inner := NodeSpec.sizeOf_embedded?_lt ‹spec.embedded? = some body›
    have entries := Scope.sizeOf_entries_le body
    simp only [List.cons.sizeOf_spec, Prod.mk.sizeOf_spec]
    omega
  · simp only [List.cons.sizeOf_spec]
    omega

/-- Keys lead from the nodes of a scope to a node, through the scopes that the nodes on the way
embed. -/
inductive Reaches : List (String × NodeSpec) → List String → NodeSpec → Prop
  | own {specs : List (String × NodeSpec)} {key : String} {spec : NodeSpec}
      (entry : (key, spec) ∈ specs) : Reaches specs [key] spec
  | inside {specs : List (String × NodeSpec)} {key : String} {outer spec : NodeSpec} {body : Flow}
      {path : List String} (entry : (key, outer) ∈ specs) (embeds : outer.embedded? = some body)
      (further : Reaches body.entries path spec) : Reaches specs (key :: path) spec

section

variable {key : String} {path path' : List String} {spec outer : NodeSpec} {body : Flow}
variable {rest specs : List (String × NodeSpec)} {e : Listed}

@[simp] theorem outline_nil : outline [] = [] := by rw [outline]

theorem outline_plain (closed : spec.embedded? = none) :
    outline ((key, spec) :: rest) = ⟨[key], spec⟩ :: outline rest := by
  rw [outline]
  split
  · next embeds => rw [closed] at embeds; contradiction
  · rfl

theorem outline_group (embeds : spec.embedded? = some body) :
    outline ((key, spec) :: rest) =
      ⟨[key], spec⟩ :: ((outline body.entries).map (Listed.below [key]) ++ outline rest) := by
  rw [outline]
  split
  · next embeds' => rw [Option.some.inj (embeds.symm.trans embeds')]
  · next closed => rw [embeds] at closed; contradiction

theorem Listed.below_below (e : Listed) :
    (e.below path').below path = e.below (path ++ path') := by
  rw [below, below, below, List.append_assoc]

theorem Reaches.mono {more : List (String × NodeSpec)} (h : Reaches specs path spec)
    (sub : specs ⊆ more) : Reaches more path spec := by
  cases h with
  | own entry => exact .own (sub entry)
  | inside entry embeds further => exact .inside (sub entry) embeds further

theorem reaches_cons {inner : NodeSpec} (reaches : Reaches ((key, spec) :: rest) path inner) :
    path = [key] ∧ inner = spec ∨
      (∃ body further, spec.embedded? = some body ∧ path = key :: further ∧
        Reaches body.entries further inner) ∨ Reaches rest path inner := by
  cases reaches with
  | own entry =>
      obtain here | later := List.mem_cons.mp entry
      · cases here
        exact .inl ⟨rfl, rfl⟩
      · exact .inr (.inr (.own later))
  | inside entry embeds further =>
      obtain here | later := List.mem_cons.mp entry
      · cases here
        exact .inr (.inl ⟨_, _, embeds, rfl, further⟩)
      · exact .inr (.inr (.inside later embeds further))

theorem mem_outline_cons : e ∈ outline ((key, spec) :: rest) ↔
    e = ⟨[key], spec⟩ ∨
      (∃ body, spec.embedded? = some body ∧ ∃ inner ∈ outline body.entries, inner.below [key] = e) ∨
      e ∈ outline rest := by
  cases embeds : spec.embedded? with
  | none => simp [outline_plain embeds]
  | some body => simp [outline_group embeds]

theorem mem_outline_of_mem {entry : String × NodeSpec} (listed : entry ∈ specs)
    (own : e ∈ outline [entry]) : e ∈ outline specs := by
  induction specs with
  | nil => exact absurd listed List.not_mem_nil
  | cons first rest ih =>
      obtain rfl | later := List.mem_cons.mp listed
      · rw [mem_outline_cons, outline_nil] at own
        exact mem_outline_cons.mpr (own.imp_right (Or.imp_right fun none => by contradiction))
      · exact mem_outline_cons.mpr (.inr (.inr (ih later)))

/-- An outline lists what keys lead to, and nothing else. -/
theorem mem_outline_iff : ⟨path, spec⟩ ∈ outline specs ↔ Reaches specs path spec := by
  constructor
  · intro listed
    induction specs using nestedInduction generalizing path with
    | nil => simp at listed
    | plain key own rest closed ih =>
        obtain here | ⟨body, embeds, -⟩ | later := mem_outline_cons.mp listed
        · cases here
          exact .own List.mem_cons_self
        · rw [closed] at embeds
          contradiction
        · exact (ih later).mono (List.subset_cons_self _ _)
    | group key own rest body embeds ihInside ihAfter =>
        obtain here | ⟨body', embeds', ⟨further, _⟩, inside, same⟩ | later :=
          mem_outline_cons.mp listed
        · cases here
          exact .own List.mem_cons_self
        · obtain rfl := Option.some.inj (embeds.symm.trans embeds')
          cases same
          exact .inside List.mem_cons_self embeds (ihInside inside)
        · exact (ihAfter later).mono (List.subset_cons_self _ _)
  · intro reaches
    induction reaches with
    | own entry => exact mem_outline_of_mem entry (mem_outline_cons.mpr (.inl rfl))
    | inside entry embeds further ih =>
        exact mem_outline_of_mem entry
          (mem_outline_cons.mpr (.inr (.inl ⟨_, embeds, _, ih, rfl⟩)))

/-- The first of the keys that lead to a node is one of the scope itself. -/
theorem exists_path_eq_cons (listed : e ∈ outline specs) :
    ∃ key ∈ Entries.names specs, ∃ further, e.path = key :: further := by
  obtain ⟨path, spec⟩ := e
  cases mem_outline_iff.mp listed with
  | own entry => exact ⟨_, List.mem_map_of_mem entry, [], rfl⟩
  | inside entry => exact ⟨_, List.mem_map_of_mem entry, _, rfl⟩

/-- Paths that begin with a new key are not listed. -/
theorem cons_not_mem_paths (fresh : key ∉ Entries.names specs) (path : List String) :
    key :: path ∉ (outline specs).map Listed.path := by
  intro again
  obtain ⟨e, listed, same⟩ := List.mem_map.mp again
  obtain ⟨key', known, further, begins⟩ := exists_path_eq_cons listed
  obtain ⟨rfl, -⟩ := List.cons.inj (same.symm.trans begins)
  exact fresh known

/-- Where scopes have each key once, no two nodes have the same path. -/
theorem nodup_paths_outline (distinct : (Entries.names specs).Nodup)
    (keyed : ∀ entry ∈ specs, ∀ body, entry.2.embedded? = some body → Flow.Keyed body) :
    ((outline specs).map Listed.path).Nodup := by
  induction specs using nestedInduction with
  | nil => simp
  | plain key spec rest closed ih =>
      obtain ⟨fresh, distinct⟩ := List.nodup_cons.mp distinct
      rw [outline_plain closed, List.map_cons, List.nodup_cons]
      have after := ih distinct fun entry later => keyed entry (.tail _ later)
      exact ⟨cons_not_mem_paths fresh [], after⟩
  | group key spec rest body embeds ihInside ihAfter =>
      obtain ⟨fresh, distinct⟩ := List.nodup_cons.mp distinct
      have inner := keyed _ List.mem_cons_self body embeds
      have paths : ((outline body.entries).map (Listed.below [key])).map Listed.path =
          ((outline body.entries).map Listed.path).map (key :: ·) := by
        rw [List.map_map, List.map_map]
        rfl
      have inside := (ihInside inner.distinct fun entry listed _ => inner.embedded listed).map
        List.cons_injective (f := (key :: ·))
      have after := ihAfter distinct fun entry later => keyed entry (.tail _ later)
      rw [outline_group embeds, List.map_cons, List.map_append, paths, List.nodup_cons]
      refine ⟨?_, List.nodup_append'.mpr ⟨inside, after, ?_⟩⟩
      · rw [List.mem_append, not_or]
        refine ⟨?_, cons_not_mem_paths fresh []⟩
        intro again
        obtain ⟨_, inner, same⟩ := List.mem_map.mp again
        obtain ⟨e, listed, rfl⟩ := List.mem_map.mp inner
        obtain ⟨key', -, further, begins⟩ := exists_path_eq_cons listed
        exact absurd (begins ▸ List.tail_eq_of_cons_eq same) (List.cons_ne_nil _ _)
      · intro path here later
        obtain ⟨further, -, rfl⟩ := List.mem_map.mp here
        exact cons_not_mem_paths fresh further later

end

end FlowDiagram.Graph
