import FlowDiagram.Proofs.Graph.Preorder
/-!
# Identifiers of clean keys

Identifiers are numbered where they collide. If no key of a flow is empty or has an underscore in
it, nodes have no collisions: each is named by the keys that lead to it. If no key has a hyphen in
it either, edges collide only where both of them show the default label between the same nodes.
Where this does not occur, every edge is named by its ends and its label, in the scope that it
comes from and in all scopes around it (`ofFlow_named`).

Both encodings are injective, so names that differ as lists of keys or as links differ as texts.
`Unclaimed` carries this for nodes through the scopes: the names of all nodes that are still to
come differ from each other and from what is taken.
-/

namespace FlowDiagram.Graph

open Definition Transition

/-! ## Names of paths -/

/-- The keys of a path in one name. -/
def pathName (path : List String) : String := "_".intercalate path

/-- A property of all keys of a scope and of the scopes that are embedded in it. -/
def EachKey (P : String → Prop) (specs : List (String × NodeSpec)) : Prop :=
  ∀ path spec, Reaches specs path spec → ∀ key ∈ path, P key

/-- The names of the nodes of a scope that lies at a path, and of all scopes embedded in it. -/
def pathNames (around : List String) (specs : List (String × NodeSpec)) : List String :=
  (outline specs).map fun e => pathName (around ++ e.path)

section

variable {path path' around : List String} {key : String} {spec : NodeSpec} {body : Flow}
variable {rest specs : List (String × NodeSpec)} {P : String → Prop} {c : Char}

theorem pathName_injective (some : path ≠ []) (some' : path' ≠ [])
    (clean : ∀ key ∈ path, '_' ∉ key.toList) (clean' : ∀ key ∈ path', '_' ∉ key.toList)
    (same : pathName path = pathName path') : path = path' := by
  have parts (l : List String) (some : l ≠ []) (clean : ∀ key ∈ l, '_' ∉ key.toList) :
      (pathName l).toList.splitOn '_' = l.map String.toList := by
    rw [pathName, String.toList_intercalate]
    exact List.splitOn_intercalate '_' (List.forall_mem_map.mpr clean) (by simpa using some)
  have texts := (parts path some clean).symm.trans (same ▸ parts path' some' clean')
  exact List.map_injective_iff.mpr (fun _ _ => String.toList_inj.mp) texts

theorem pathName_ne_empty (some : path ≠ []) (named : ∀ key ∈ path, key ≠ "") :
    pathName path ≠ "" := by
  cases path with
  | nil => contradiction
  | cons key rest =>
      have first := named key List.mem_cons_self
      cases rest <;> simp [pathName, first]

/-- A key is qualified by the name of the path around it. -/
theorem qualify_pathName (named : ∀ key ∈ around, key ≠ "") (key : String) :
    qualify (pathName around) key = pathName (around ++ [key]) := by
  by_cases outermost : around = []
  · subst outermost
    simp [qualify, pathName]
  · rw [qualify, if_neg (by simpa using pathName_ne_empty outermost named), pathName, pathName,
      String.intercalate_append_of_ne_nil outermost (List.cons_ne_nil _ _)]
    simp

/-- A character that is in no key, other than the one between keys, is not in a name. -/
theorem not_mem_pathName (other : c ≠ '_') (clean : ∀ key ∈ path, c ∉ key.toList) :
    c ∉ (pathName path).toList := by
  induction path with
  | nil => simp [pathName]
  | cons key rest ih =>
      obtain ⟨own, others⟩ := List.forall_mem_cons.mp clean
      have later := ih others
      cases rest with
      | nil => simpa [pathName] using own
      | cons next rest =>
          rw [pathName, String.intercalate_cons_cons]
          simp only [String.toList_append, List.mem_append, not_or]
          exact ⟨⟨own, by simpa using other⟩, later⟩

theorem eachKey_nil : EachKey P [] := by
  intro path spec reaches
  cases reaches <;> contradiction

theorem eachKey_cons : EachKey P ((key, spec) :: rest) ↔
    P key ∧ (∀ body, spec.embedded? = some body → EachKey P body.entries) ∧ EachKey P rest := by
  constructor
  · intro each
    refine ⟨each _ spec (.own List.mem_cons_self) key List.mem_cons_self, ?_, ?_⟩
    · intro body embeds path inner further key' member
      exact each _ inner (.inside List.mem_cons_self embeds further) key' (.tail _ member)
    · exact fun path inner further => each path inner (further.mono (List.subset_cons_self _ _))
  · rintro ⟨own, inside, after⟩ path inner reaches
    obtain ⟨rfl, -⟩ | ⟨body, further, embeds, rfl, nested⟩ | later := reaches_cons reaches
    · exact List.forall_mem_singleton.mpr own
    · exact List.forall_mem_cons.mpr ⟨own, inside body embeds further inner nested⟩
    · exact after path inner later

theorem pathNames_plain (closed : spec.embedded? = none) :
    pathNames around ((key, spec) :: rest) =
      pathName (around ++ [key]) :: pathNames around rest := by
  rw [pathNames, outline_plain closed, List.map_cons]
  rfl

theorem pathNames_group (embeds : spec.embedded? = some body) :
    pathNames around ((key, spec) :: rest) =
      pathName (around ++ [key]) ::
        (pathNames (around ++ [key]) body.entries ++ pathNames around rest) := by
  rw [pathNames, outline_group embeds, List.map_cons, List.map_append, List.map_map]
  simp [pathNames, Listed.below, Function.comp_def]

/-- Paths that differ have names that differ. -/
theorem nodup_pathNames (distinct : (Entries.names specs).Nodup)
    (keyed : ∀ entry ∈ specs, ∀ body, entry.2.embedded? = some body → Flow.Keyed body)
    (clean : EachKey (fun key => '_' ∉ key.toList) specs) : (pathNames [] specs).Nodup := by
  have paths := nodup_paths_outline distinct keyed
  have names : pathNames [] specs = ((outline specs).map Listed.path).map pathName := by
    rw [List.map_map]
    rfl
  have listed (path : List String) (member : path ∈ (outline specs).map Listed.path) :
      path ≠ [] ∧ ∀ key ∈ path, '_' ∉ key.toList := by
    obtain ⟨e, listed, rfl⟩ := List.mem_map.mp member
    obtain ⟨key, -, further, begins⟩ := exists_path_eq_cons listed
    exact ⟨begins ▸ List.cons_ne_nil _ _, clean _ _ (mem_outline_iff.mp listed)⟩
  rw [names]
  refine List.Nodup.map_on (fun path member path' member' => ?_) paths
  exact pathName_injective (listed path member).1 (listed path' member').1 (listed path member).2
    (listed path' member').2

end

/-! ## Nodes -/

/-- The names of all nodes of a scope differ from each other and from what is taken. -/
structure Unclaimed (around taken : List String) (specs : List (String × NodeSpec)) : Prop where
  around_named : ∀ key ∈ around, key ≠ ""
  named : EachKey (· ≠ "") specs
  distinct : (pathNames around specs).Nodup
  fresh : ∀ name ∈ pathNames around specs, name ∉ taken

namespace Unclaimed

variable {around taken ids : List String} {key : String} {spec : NodeSpec} {body : Flow}
variable {rest specs : List (String × NodeSpec)}

theorem qualified (h : Unclaimed around taken specs) (key : String) :
    qualify (pathName around) key = pathName (around ++ [key]) :=
  qualify_pathName h.around_named key

theorem mem_pathNames (key : String) (spec : NodeSpec) (rest : List (String × NodeSpec)) :
    pathName (around ++ [key]) ∈ pathNames around ((key, spec) :: rest) := by
  cases embeds : spec.embedded? with
  | none => exact pathNames_plain embeds ▸ List.mem_cons_self
  | some body => exact pathNames_group embeds ▸ List.mem_cons_self

/-- A key claims the name of its path. -/
theorem claim_eq (h : Unclaimed around taken ((key, spec) :: rest)) :
    claim taken (qualify (pathName around) key) = pathName (around ++ [key]) := by
  rw [h.qualified, claim_of_not_mem (h.fresh _ (mem_pathNames key spec rest))]

theorem plain (h : Unclaimed around taken ((key, spec) :: rest)) (closed : spec.embedded? = none) :
    Unclaimed around (pathName (around ++ [key]) :: taken) rest := by
  obtain ⟨around_named, named, distinct, fresh⟩ := h
  rw [pathNames_plain closed] at distinct fresh
  obtain ⟨other, distinct⟩ := List.nodup_cons.mp distinct
  refine ⟨around_named, (eachKey_cons.mp named).2.2, distinct, fun name later => ?_⟩
  refine not_or.mpr ⟨?_, fresh name (.tail _ later)⟩ ∘ List.mem_cons.mp
  exact fun same => other (same ▸ later)

theorem inside (h : Unclaimed around taken ((key, spec) :: rest))
    (embeds : spec.embedded? = some body) :
    Unclaimed (around ++ [key]) (pathName (around ++ [key]) :: taken) body.entries := by
  obtain ⟨around_named, named, distinct, fresh⟩ := h
  obtain ⟨own, inside, -⟩ := eachKey_cons.mp named
  rw [pathNames_group embeds] at distinct fresh
  obtain ⟨other, distinct⟩ := List.nodup_cons.mp distinct
  obtain ⟨distinct, -, -⟩ := List.nodup_append'.mp distinct
  refine ⟨?_, inside body embeds, distinct, fun name nested => ?_⟩
  · exact List.forall_mem_append.mpr ⟨around_named, List.forall_mem_singleton.mpr own⟩
  · have known := List.mem_append_left (pathNames around rest) nested
    refine not_or.mpr ⟨?_, fresh name (.tail _ known)⟩ ∘ List.mem_cons.mp
    exact fun same => other (same ▸ known)

/-- What follows a group is free after its scope is emitted under the names of its paths. -/
theorem group (h : Unclaimed around taken ((key, spec) :: rest))
    (embeds : spec.embedded? = some body) {id : String} {parent : Option String} {inner : Emitted}
    {between : List String}
    (inside : Emits id parent (pathName (around ++ [key]) :: taken) body.entries inner between)
    (scope : inner.ids = pathNames (around ++ [key]) body.entries) :
    Unclaimed around between rest := by
  obtain ⟨around_named, named, distinct, fresh⟩ := h
  rw [pathNames_group embeds, ← scope] at distinct fresh
  obtain ⟨other, distinct⟩ := List.nodup_cons.mp distinct
  obtain ⟨-, distinct, apart⟩ := List.nodup_append'.mp distinct
  refine ⟨around_named, (eachKey_cons.mp named).2.2, distinct, fun name later old => ?_⟩
  have known := List.mem_append_right inner.ids later
  rw [inside.taken_eq, List.mem_append, List.mem_reverse, List.mem_cons] at old
  obtain nested | same | old := old
  · exact apart nested later
  · exact other (same ▸ known)
  · exact fresh name (.tail _ known) old

end Unclaimed

section

variable {within : String} {parent : Option String} {around taken taken' path : List String}
variable {specs : List (String × NodeSpec)} {emitted : Emitted} {spec : NodeSpec} {body : Flow}

/-- Nodes whose names are not claimed yet are identified by them. -/
theorem Emits.ids_eq_pathNames (run : Emits (pathName around) parent taken specs emitted taken')
    (free : Unclaimed around taken specs) : emitted.ids = pathNames around specs := by
  generalize place : pathName around = within at run
  induction run generalizing around with
  | nil => simp [pathNames]
  | plain closed after ih =>
      subst place
      rw [free.claim_eq] at ih ⊢
      rw [Emitted.ids_append, ih (free.plain closed) rfl, pathNames_plain closed]
      rfl
  | @group within id key parent taken between taken' spec body inner ts rest others claimed embeds
      inside derived after ihInside ihAfter =>
      subst place
      rw [free.claim_eq] at claimed
      subst claimed
      have scope := ihInside (free.inside embeds) rfl
      rw [Emitted.ids_append, Emitted.ids_group, ids_connect, scope,
        ihAfter (free.group embeds inside scope) rfl, pathNames_group embeds]
      rfl

end

/-! ## Edges -/

/-- Edges whose identifiers differ keep them. -/
theorem identified_of_nodup {edges : List Edge} (distinct : (edges.map Edge.id).Nodup) :
    identified edges = edges := by
  rw [identified, claimAll_of_nodup distinct fun _ _ => List.not_mem_nil, List.zipWith_map_right,
    List.zipWith_self]
  exact List.map_id' edges

/-- The name of an edge by its ends and its label. -/
def Link.name (l : Link) : String := edgeName l.source l.target l.label

/-- Edges are named by their ends and their labels. -/
def Unnumbered (edges : List Edge) : Prop := ∀ e ∈ edges, e.id = e.link.name

section

variable {within : String} {parent : Option String} {around taken taken' path : List String}
variable {specs : List (String × NodeSpec)} {emitted : Emitted} {spec : NodeSpec} {body : Flow}
variable {ts : List Transition} {start : Option String} {edges : List Edge}

theorem Unnumbered.ids_eq (named : Unnumbered edges) :
    edges.map Edge.id = (edges.map Edge.link).map Link.name := by
  rw [List.map_map]
  exact List.map_congr_left named

theorem unnumbered_scopeEdges (ports : Entries Ports) (ts : List Transition) :
    Unnumbered (scopeEdges ports ts) :=
  List.forall_mem_map.mpr fun _ _ => rfl

/-- Where the names of links differ, connecting a scope numbers no edge. -/
theorem edges_connect (named : Unnumbered emitted.edges)
    (distinct : ((connect emitted start ts).links.map Link.name).Nodup) :
    (connect emitted start ts).edges = emitted.edges ++ scopeEdges emitted.ports ts := by
  refine identified_of_nodup ?_
  rw [List.map_append, named.ids_eq, (unnumbered_scopeEdges _ _).ids_eq, ← List.map_append]
  rwa [links_connect] at distinct

/-- Links that were there before a scope is connected have names that differ, if all have. -/
theorem nodup_names_of_connect
    (distinct : ((connect emitted start ts).links.map Link.name).Nodup) :
    (emitted.links.map Link.name).Nodup := by
  rw [links_connect, List.map_append] at distinct
  exact (List.nodup_append'.mp distinct).1

/-- Links of a group and of what follows it have names that differ, if all have. -/
theorem nodup_names_group {id key : String} {inner others : Emitted}
    (distinct : (((group parent id key spec (connect inner start ts)).append others).links.map
      Link.name).Nodup) :
    (inner.links.map Link.name).Nodup ∧ ((connect inner start ts).links.map Link.name).Nodup ∧
      (others.links.map Link.name).Nodup := by
  rw [Emitted.links_append, Emitted.links_group, List.map_append] at distinct
  obtain ⟨scope, later, -⟩ := List.nodup_append'.mp distinct
  exact ⟨nodup_names_of_connect scope, scope, later⟩

/-- The same for a whole pass: neither a scope nor one around it numbers an edge. -/
theorem Emits.unnumbered (run : Emits within parent taken specs emitted taken')
    (distinct : (emitted.links.map Link.name).Nodup) : Unnumbered emitted.edges := by
  induction run with
  | nil => exact fun e member => absurd member List.not_mem_nil
  | plain closed after ih => exact ih distinct
  | @group within id key parent taken between taken' spec body inner ts rest others claimed embeds
      inside derived after ihInside ihAfter =>
      obtain ⟨nested, scope, later⟩ := nodup_names_group distinct
      have named := ihInside nested
      refine List.forall_mem_append.mpr ⟨?_, ihAfter later⟩
      change Unnumbered (connect inner body.start.value? ts).edges
      rw [edges_connect named scope]
      exact List.forall_mem_append.mpr ⟨named, unnumbered_scopeEdges _ _⟩

/-- The edges of the scope at a path, as it expands by itself there, are among some edges. -/
def HasEdges (edges : List Edge) (path : List String) (body : Flow) : Prop :=
  ∃ before inner after,
    expand (pathName path) (some (pathName path)) before body = .ok (inner, after) ∧
      inner.edges.Sublist edges

theorem HasEdges.mono {edges' : List Edge} (h : HasEdges edges path body)
    (sub : edges.Sublist edges') : HasEdges edges' path body := by
  obtain ⟨before, inner, after, expanded, kept⟩ := h
  exact ⟨before, inner, after, expanded, kept.trans sub⟩

/-- The edges of each scope that a pass comes through stay as they are. -/
theorem Emits.hasEdges (run : Emits (pathName around) parent taken specs emitted taken')
    (free : Unclaimed around taken specs) (distinct : (emitted.links.map Link.name).Nodup)
    (reaches : Reaches specs path spec) (embeds : spec.embedded? = some body) :
    HasEdges emitted.edges (around ++ path) body := by
  generalize place : pathName around = within at run
  induction run generalizing around path with
  | nil => cases reaches <;> contradiction
  | plain closed after ih =>
      subst place
      rw [free.claim_eq] at ih
      obtain ⟨-, rfl⟩ | ⟨_, -, embeds', -⟩ | later := reaches_cons reaches
      · rw [closed] at embeds
        contradiction
      · rw [closed] at embeds'
        contradiction
      · exact ih (free.plain closed) distinct later rfl
  | @group within id key parent taken between taken' spec' scope inner ts rest others claimed
      embeds' inside derived after ihInside ihAfter =>
      subst place
      rw [free.claim_eq] at claimed
      subst claimed
      obtain ⟨nested, own, later_distinct⟩ := nodup_names_group distinct
      obtain ⟨rfl, rfl⟩ | ⟨around', further, embeds'', rfl, deeper⟩ | later := reaches_cons reaches
      · obtain rfl := Option.some.inj (embeds.symm.trans embeds')
        refine ⟨_, _, between, expand_eq_ok_iff.mpr ⟨inner, ts, inside, derived, rfl⟩, ?_⟩
        exact List.sublist_append_left _ _
      · obtain rfl := Option.some.inj (embeds''.symm.trans embeds')
        have kept := ihInside (free.inside embeds') nested deeper rfl
        rw [List.append_assoc] at kept
        refine (kept.mono ?_).mono (List.sublist_append_left _ others.edges)
        change inner.edges.Sublist (connect inner around'.start.value? ts).edges
        rw [edges_connect (inside.unnumbered nested) own]
        exact List.sublist_append_left _ _
      · have free' := free.group embeds' inside (inside.ids_eq_pathNames (free.inside embeds'))
        exact (ihAfter free' later_distinct later rfl).mono (List.sublist_append_right _ _)

end

/-! ## Names of links -/

/-- A label that is shown as the default one. -/
def IsDefault (label : Option String) : Prop :=
  label = none ∨ label = some "" ∨ label = some "default"

instance (label : Option String) : Decidable (IsDefault label) :=
  inferInstanceAs (Decidable (label = none ∨ label = some "" ∨ label = some "default"))

section

variable {α : Type} {a : α} {front front' back back' : List α}

/-- What is in front of a separator ends at its first place. -/
theorem append_cons_inj (free : a ∉ front) (free' : a ∉ front')
    (same : front ++ a :: back = front' ++ a :: back') : front = front' ∧ back = back' := by
  induction front generalizing front' with
  | nil =>
      cases front' with
      | nil => exact ⟨rfl, (List.cons.inj same).2⟩
      | cons b rest => exact absurd ((List.cons.inj same).1 ▸ List.mem_cons_self) free'
  | cons b rest ih =>
      cases front' with
      | nil => exact absurd ((List.cons.inj same).1 ▸ List.mem_cons_self) free
      | cons b' rest' =>
          obtain ⟨rfl, later⟩ := List.cons.inj same
          obtain ⟨rfl, behind⟩ := ih (not_or.mp (List.mem_cons.not.mp free)).2
            (not_or.mp (List.mem_cons.not.mp free')).2 later
          exact ⟨rfl, behind⟩

end

theorem eq_or_isDefault {label label' : Option String}
    (same : (label.filter (!·.isEmpty)).getD "default" =
      (label'.filter (!·.isEmpty)).getD "default") :
    label = label' ∨ IsDefault label ∧ IsDefault label' := by
  have shown (label : Option String) :
      label = some ((label.filter (!·.isEmpty)).getD "default") ∨
        IsDefault label ∧ (label.filter (!·.isEmpty)).getD "default" = "default" := by
    cases label with
    | none => exact .inr ⟨.inl rfl, rfl⟩
    | some text =>
        by_cases empty : text = ""
        · subst empty
          exact .inr ⟨.inr (.inl rfl), rfl⟩
        · refine .inl ?_
          rw [Option.filter_some_pos (by simpa using empty), Option.getD_some]
  obtain own | ⟨default, text⟩ := shown label <;> obtain own' | ⟨default', text'⟩ := shown label'
  · exact .inl (by rw [own, own', same])
  · exact .inr ⟨.inr (.inr (own.trans (congrArg some (same.trans text')))), default'⟩
  · exact .inr ⟨default, .inr (.inr (own'.trans (congrArg some (same.symm.trans text))))⟩
  · exact .inr ⟨default, default'⟩

/-- Between names without a hyphen, the name of a link determines it up to the default label. -/
theorem Link.eq_of_name_eq {l l' : Link} (free : '-' ∉ l.source.toList ∧ '-' ∉ l.target.toList)
    (free' : '-' ∉ l'.source.toList ∧ '-' ∉ l'.target.toList) (same : l.name = l'.name) :
    l.source = l'.source ∧ l.target = l'.target ∧
      (l.label = l'.label ∨ IsDefault l.label ∧ IsDefault l'.label) := by
  have texts := congrArg String.toList same
  simp only [Link.name, edgeName, String.toList_append, List.append_assoc] at texts
  obtain ⟨source, texts⟩ := append_cons_inj free.1 free'.1 texts
  obtain ⟨target, texts⟩ := append_cons_inj free.2 free'.2 texts
  exact ⟨String.toList_inj.mp source, String.toList_inj.mp target,
    eq_or_isDefault (String.toList_inj.mp texts)⟩

/-! ## Graphs of flows -/

section

variable {flow : Flow} {g : Graph}

theorem nodup_link_names {ids : List String} {links : List Link} {exits entries : List String}
    (coherent : Coherent ids links exits entries) (free : ∀ id ∈ ids, '-' ∉ id.toList)
    (apart : ∀ l ∈ links, ∀ l' ∈ links, l.source = l'.source → l.target = l'.target →
      IsDefault l.label → IsDefault l'.label → l = l') : (links.map Link.name).Nodup := by
  refine List.Nodup.map_on (fun l member l' member' same => ?_) coherent.links_distinct
  have ends (l : Link) (member : l ∈ links) :=
    (coherent.ends_mem l member).imp (free l.source) (free l.target)
  obtain ⟨source, target, label | ⟨default, default'⟩⟩ :=
    Link.eq_of_name_eq (ends l member) (ends l' member') same
  · cases l
    cases l'
    simp_all
  · exact apart l member l' member' source target default default'

/-- Nothing is taken in front of the outermost scope. -/
theorem unclaimed_outermost (keyed : Flow.Keyed flow)
    (clean : EachKey (fun key => key ≠ "" ∧ '_' ∉ key.toList) flow.entries) :
    Unclaimed [] [] flow.entries where
  around_named := fun _ member => absurd member List.not_mem_nil
  named := fun path spec reaches key member => (clean path spec reaches key member).1
  distinct := nodup_pathNames keyed.distinct (fun _ listed _ => keyed.embedded listed)
    fun path spec reaches key member => (clean path spec reaches key member).2
  fresh := fun _ _ => List.not_mem_nil

/-- If no key of a flow is empty or has an underscore in it, each node is identified by the keys
that lead to it. If also no key has a hyphen in it, and no two edges between the same nodes show
the default label, each edge is identified by its ends and its label, and the edges of every
embedded scope are edges of the whole as they were in the scope. -/
theorem ofFlow_named (keyed : Flow.Keyed flow)
    (clean : EachKey (fun key => key ≠ "" ∧ '_' ∉ key.toList) flow.entries)
    (h : ofFlow flow = .ok g) :
    (∃ rows, IsPreorder flow g rows ∧ ∀ r ∈ rows, r.2.id = "_".intercalate r.1.path) ∧
      (EachKey (fun key => '-' ∉ key.toList) flow.entries →
        (∀ e ∈ g.edges, ∀ e' ∈ g.edges, e ≠ e' → e.source = e'.source → e.target = e'.target →
          ¬(IsDefault e.label ∧ IsDefault e'.label)) →
        (∀ e ∈ g.edges, e.id = edgeName e.source e.target e.label) ∧
          ∀ path spec body, Reaches flow.entries path spec → spec.embedded? = some body →
            HasEdges g.edges path body) := by
  obtain ⟨inner, taken, expanded, like⟩ := exists_expand_of_ofFlow h
  obtain ⟨emitted, ts, run, -, rfl⟩ := expand_eq_ok_iff.mp expanded
  have outermost : pathName [] = "" := String.intercalate_nil
  rw [← outermost] at run
  have free := unclaimed_outermost keyed clean
  have ids := run.ids_eq_pathNames free
  refine ⟨?_, fun unhyphened apart => ?_⟩
  · obtain ⟨rows, traverses, nodes, -⟩ := run.exists_rows like.nodes
    refine ⟨rows, traverses.isPreorder nodes (isForest_of_ofFlow h).distinct, ?_⟩
    have names : rows.map (fun r => r.2.id) = rows.map fun r => pathName r.1.path := by
      have bare := congrArg (List.map Node.id) like.nodes
      rw [List.map_map, List.map_map, ← nodes, drawn, List.map_map] at bare
      refine (bare.trans ids).trans ?_
      rw [pathNames, ← traverses.listed, List.map_map]
      rfl
    exact List.map_inj_left.mp names
  · have coherent := run.coherent.connect flow.start.value? ts
    have hyphenless : ∀ id ∈ emitted.ids, '-' ∉ id.toList := by
      rw [ids]
      refine List.forall_mem_map.mpr fun e listed => not_mem_pathName (by decide) ?_
      exact unhyphened e.path e.spec (mem_outline_iff.mp listed)
    have distinct := nodup_link_names coherent hyphenless fun l member l' member' source target
        default default' => by
      obtain ⟨e, edge, rfl⟩ := List.mem_map.mp member
      obtain ⟨e', edge', rfl⟩ := List.mem_map.mp member'
      by_contra other
      rw [← like.edges] at edge edge'
      have differ : e ≠ e' := fun same => other (same ▸ rfl)
      exact apart e edge e' edge' differ source target ⟨default, default'⟩
    have inner_distinct := nodup_names_of_connect distinct
    have named := run.unnumbered inner_distinct
    have edges : g.edges = emitted.edges ++ scopeEdges emitted.ports ts :=
      like.edges.trans (edges_connect named distinct)
    rw [edges]
    refine ⟨List.forall_mem_append.mpr ⟨named, unnumbered_scopeEdges _ _⟩, ?_⟩
    intro path spec body reaches embeds
    have kept := run.hasEdges free inner_distinct reaches embeds
    exact HasEdges.mono kept (List.sublist_append_left _ _)

end

/-- A flow in which goods are packed in two steps, the second one of which has an inner step. Two
edges lead from the same node to the same node, and one of them shows the default label. -/
def packing : Flow where
  start := .given "order"
  nodes := .given [
    ("order", {}),
    ("pack", {
      others := [("kind", .str "subflow")]
      subflow := .given {
        start := .given "pick"
        nodes := .given [
          ("pick", {}),
          ("wrap", {
            others := [("kind", .str "subflow")]
            subflow := .given { nodes := .given [("seal", {})] } })]
        edges := .given [{ source := .given "pick", target := .given "wrap" }] } }),
    ("ship", {})]
  edges := .given [
    { source := .given "order", target := .given "pack", action := .given "default" },
    { source := .given "pack", target := .given "ship" },
    { source := .given "pack", target := .given "ship", action := .given "fast" }]

theorem keyed_packing : Flow.Keyed packing := by
  refine .intro (by decide) (List.forall_mem_singleton.mpr ?_)
  refine .intro (by decide) (List.forall_mem_singleton.mpr ?_)
  exact .intro (by decide) fun body held => absurd held List.not_mem_nil

theorem eachKey_packing {P : String → Prop}
    (each : ∀ key ∈ ["order", "pack", "pick", "wrap", "seal", "ship"], P key) :
    EachKey P packing.entries := by
  simp only [List.forall_mem_cons] at each
  obtain ⟨order, pack, pick, wrap, sealing, ship, -⟩ := each
  have closed {key : String} {rest : List (String × NodeSpec)} (own : P key)
      (after : EachKey P rest) : EachKey P ((key, {}) :: rest) :=
    eachKey_cons.mpr ⟨own, fun _ embeds => (nomatch embeds), after⟩
  refine closed order (eachKey_cons.mpr ⟨pack, ?_, closed ship eachKey_nil⟩)
  rintro _ ⟨⟩
  refine closed pick (eachKey_cons.mpr ⟨wrap, ?_, eachKey_nil⟩)
  rintro _ ⟨⟩
  exact closed sealing eachKey_nil

def packingEdges : List Edge := [
  ⟨"pack_pick-pack_wrap-default", "pack_pick", "pack_wrap", none⟩,
  ⟨"order-pack_pick-default", "order", "pack_pick", some "default"⟩,
  ⟨"pack_wrap_seal-ship-default", "pack_wrap_seal", "ship", none⟩,
  ⟨"pack_wrap_seal-ship-fast", "pack_wrap_seal", "ship", some "fast"⟩]

/-- The nodes and edges of the flow, which has three levels, are named by keys and ends. -/
theorem ofFlow_named_packing :
    ∃ g, ofFlow packing = .ok g ∧
      g.ids = ["order", "pack", "pack_pick", "pack_wrap", "pack_wrap_seal", "ship"] ∧
      (∃ rows, IsPreorder packing g rows ∧ ∀ r ∈ rows, r.2.id = "_".intercalate r.1.path) ∧
      g.edges = packingEdges ∧ ∀ e ∈ packingEdges, e.id = edgeName e.source e.target e.label := by
  have clean := eachKey_packing (P := fun key => key ≠ "" ∧ '_' ∉ key.toList) (by decide)
  have unhyphened := eachKey_packing (P := fun key => '-' ∉ key.toList) (by decide)
  obtain ⟨g, made⟩ : ∃ g, ofFlow packing = .ok g := ⟨_, rfl⟩
  have drawn : (ofFlow packing).map (fun g => (g.ids, g.edges)) =
      .ok (["order", "pack", "pack_pick", "pack_wrap", "pack_wrap_seal", "ship"],
        packingEdges) := by
    decide +kernel
  rw [made] at drawn
  obtain ⟨ids, edges⟩ := Prod.mk.inj (Except.ok.inj drawn)
  obtain ⟨rows, named⟩ := ofFlow_named keyed_packing clean made
  rw [edges] at named
  exact ⟨g, made, ids, rows, edges, (named unhyphened (by decide)).1⟩

end FlowDiagram.Graph
