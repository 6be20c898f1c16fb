import FlowDiagram.Diagram.Details
import FlowDiagram.Proofs.Graph.Outline
import FlowDiagram.Proofs.Graph.Rightward
/-!
# Graphs in preorder

The nodes of a graph stand in the order of the outline of its flow, one for each entry
(`ofFlow_preorder`).

Identifiers may collide and be numbered, so they do not show where a node belongs. `Traverses`
pairs entries with nodes and follows the scopes instead: a group is followed by the rows of its
scope, whose nodes name the group as their parent. That the rows of a group are all that lies
under it, and that its children are as many as its scope has keys, follows from this by
induction, as far as identifiers differ (`Traverses.exists_followed`).
-/

namespace FlowDiagram.Graph

open Definition Document

/-! ## Rows -/

/-- Each node of a graph with the entry that it was emitted for. -/
abbrev Row := Listed × Node

/-- The same row, seen from further out. -/
def Row.below (path : List String) (r : Row) : Row := (r.1.below path, r.2)

/-- Rows follow the outline of a scope whose nodes stand under `parent`. The rows of a group come
right after it. -/
inductive Traverses : Option String → List (String × NodeSpec) → List Row → Prop
  | nil {parent : Option String} : Traverses parent [] []
  | plain {parent : Option String} {key : String} {n : Node} {rest : List (String × NodeSpec)}
      {rows : List Row} (closed : n.spec.embedded? = none) (single : n.isGroup = false)
      (top : n.parent = parent) (after : Traverses parent rest rows) :
      Traverses parent ((key, n.spec) :: rest) ((⟨[key], n.spec⟩, n) :: rows)
  | group {parent : Option String} {key : String} {n : Node} {body : Flow}
      {rest : List (String × NodeSpec)} {inner rows : List Row}
      (embeds : n.spec.embedded? = some body) (holds : n.isGroup = true)
      (top : n.parent = parent) (inside : Traverses (some n.id) body.entries inner)
      (after : Traverses parent rest rows) :
      Traverses parent ((key, n.spec) :: rest)
        ((⟨[key], n.spec⟩, n) :: (inner.map (Row.below [key]) ++ rows))

/-- The nodes of rows. -/
def drawn (rows : List Row) : List Node := rows.map Prod.snd

/-- The identifiers of the nodes of rows. -/
def rowIds (rows : List Row) : List String := (drawn rows).map Node.id

section

variable {path : List String} {rows rows' : List Row} {r : Row}

@[simp] theorem drawn_cons : drawn (r :: rows) = r.2 :: drawn rows := rfl

@[simp] theorem drawn_append : drawn (rows ++ rows') = drawn rows ++ drawn rows' :=
  List.map_append

@[simp] theorem drawn_below : drawn (rows.map (Row.below path)) = drawn rows := by
  rw [drawn, List.map_map]
  rfl

@[simp] theorem rowIds_cons : rowIds (r :: rows) = r.2.id :: rowIds rows := rfl

@[simp] theorem rowIds_append : rowIds (rows ++ rows') = rowIds rows ++ rowIds rows' := by
  simp [rowIds]

@[simp] theorem rowIds_below : rowIds (rows.map (Row.below path)) = rowIds rows := by
  rw [rowIds, drawn_below, rowIds]

end

namespace Traverses

variable {parent : Option String} {specs : List (String × NodeSpec)} {rows : List Row} {r : Row}

/-- Rows follow the outline of their scope. -/
theorem listed (h : Traverses parent specs rows) : rows.map Prod.fst = outline specs := by
  induction h with
  | nil => simp
  | plain closed single top after ih => rw [outline_plain closed, List.map_cons, ih]
  | group embeds holds top inside after ihInside ihAfter =>
      rw [outline_group embeds, List.map_cons, List.map_append, ihAfter, ← ihInside, List.map_map,
        List.map_map]
      rfl

/-- Where scopes have each key once, no two rows have the same path. -/
theorem nodup_paths (h : Traverses parent specs rows) (distinct : (Entries.names specs).Nodup)
    (keyed : ∀ entry ∈ specs, ∀ body, entry.2.embedded? = some body → Flow.Keyed body) :
    (rows.map fun r => r.1.path).Nodup := by
  have paths : (rows.map fun r => r.1.path) = (outline specs).map Listed.path := by
    rw [← h.listed, List.map_map]
    rfl
  exact paths ▸ nodup_paths_outline distinct keyed

/-- The first key of a row is one of its scope. -/
theorem exists_path_eq_cons (h : Traverses parent specs rows) (member : r ∈ rows) :
    ∃ key ∈ Entries.names specs, ∃ further, r.1.path = key :: further :=
  Graph.exists_path_eq_cons (h.listed ▸ List.mem_map_of_mem member)

end Traverses

section

variable {within id key : String} {parent : Option String} {taken taken' : List String}
variable {specs : List (String × NodeSpec)} {emitted : Emitted}

theorem claim_qualify_eq_empty_iff (within key : String) (taken : List String) :
    claim taken (qualify within key) = "" ↔ within = "" ∧ key = "" ∧ "" ∉ taken := by
  by_cases named : qualify within key = ""
  · obtain rfl : within = "" := by_contra fun some => qualify_ne_empty some key named
    rw [show key = "" from named, show qualify "" "" = "" from rfl, claim]
    split
    · next again => simp [numbered, again]
    · next free => simp [free]
  · refine iff_of_false (claim_ne_empty taken named) ?_
    rintro ⟨rfl, rfl, -⟩
    exact named rfl

/-- Nothing in a group has the empty identifier. -/
theorem Emits.empty_not_mem (inside : Emits id (some id) (id :: taken) specs emitted taken') :
    "" ∉ emitted.ids := by
  intro known
  by_cases named : id = ""
  · exact inside.head_not_mem (named ▸ known)
  · exact inside.ne_empty named "" known rfl

/-- A row without a name belongs to the empty key of an outermost scope, and this key gives one
if the empty identifier is not taken. -/
def NamedExcept (within : String) (taken : List String) (rows : List Row) : Prop :=
  ∀ r ∈ rows, r.2.id = "" ↔ within = "" ∧ r.1.path = [""] ∧ "" ∉ taken

namespace NamedExcept

variable {rows inner : List Row} {rest : List (String × NodeSpec)} {taken₁ : List String}

/-- What is taken for a key in front of some rows does not matter to them. -/
theorem after (h : NamedExcept within taken₁ rows) (traverses : Traverses parent rest rows)
    (fresh : key ∉ Entries.names rest) (sub : taken ⊆ taken₁)
    (new : "" ∈ taken₁ → "" ∈ taken ∨ key = "") : NamedExcept within taken rows := by
  intro r member
  rw [h r member]
  refine and_congr_right fun _ => and_congr_right fun path => not_congr ⟨fun again => ?_, (sub ·)⟩
  refine (new again).resolve_right fun empty => ?_
  obtain ⟨key', known, further, begins⟩ := traverses.exists_path_eq_cons member
  rw [path] at begins
  exact fresh (empty ▸ (List.head_eq_of_cons_eq begins).symm ▸ known)

/-- The rows of a group have names, and longer paths. -/
theorem below (traverses : Traverses parent specs inner) (named : ∀ r ∈ inner, r.2.id ≠ "") :
    NamedExcept within taken (inner.map (Row.below [key])) := by
  intro r member
  obtain ⟨r, inside, rfl⟩ := List.mem_map.mp member
  refine iff_of_false (named r inside) fun ⟨_, path, _⟩ => ?_
  obtain ⟨key', -, further, begins⟩ := traverses.exists_path_eq_cons inside
  have short : r.1.path = [] := List.tail_eq_of_cons_eq path
  rw [begins] at short
  contradiction

end NamedExcept

/-- What a pass emits follows the outline of its scope, with or without the mark of the start. -/
theorem Emits.exists_rows (run : Emits within parent taken specs emitted taken')
    {nodes : List Node} (same : nodes.map Node.bare = emitted.nodes.map Node.bare) :
    ∃ rows, Traverses parent specs rows ∧ drawn rows = nodes ∧
      ((Entries.names specs).Nodup → NamedExcept within taken rows) := by
  induction run generalizing nodes with
  | nil =>
      obtain rfl := List.map_eq_nil_iff.mp same
      exact ⟨[], .nil, rfl, fun _ r member => absurd member List.not_mem_nil⟩
  | @plain within key parent taken taken' spec rest others closed after ih =>
      obtain ⟨n, nodes, rfl, first, later⟩ := List.map_eq_cons_iff.mp same
      obtain ⟨rows, traverses, rfl, named⟩ := ih later
      obtain rfl : n.spec = spec := congrArg Node.spec first
      have claimed : claim taken (qualify within key) = n.id := (congrArg Node.id first).symm
      refine ⟨_, .plain closed (congrArg Node.isGroup first) (congrArg Node.parent first) traverses,
        rfl, fun distinct => ?_⟩
      obtain ⟨fresh, distinct⟩ := List.nodup_cons.mp distinct
      have own := claimed ▸ claim_qualify_eq_empty_iff within key taken
      refine List.forall_mem_cons.mpr ⟨by simpa using own, ?_⟩
      refine (named distinct).after traverses fresh (List.subset_cons_self _ _) fun again => ?_
      obtain here | old := List.mem_cons.mp again
      · exact .inr (own.mp (here ▸ claimed).symm).2.1
      · exact .inl old
  | @group within id key parent taken between taken' spec body inner ts rest others claimed embeds
      inside derived after ihInside ihAfter =>
      obtain ⟨n, nodes, rfl, first, more⟩ := List.map_eq_cons_iff.mp same
      obtain ⟨nested, others, rfl, scope, later⟩ :=
        List.map_eq_append_iff.mp (more.trans List.map_append)
      obtain ⟨innerRows, traverses, rfl, -⟩ := ihInside scope
      obtain ⟨rows, traverses', rfl, named⟩ := ihAfter later
      obtain rfl : n.spec = spec := congrArg Node.spec first
      obtain rfl : n.id = id := congrArg Node.id first
      refine ⟨_, .group embeds (congrArg Node.isGroup first) (congrArg Node.parent first) traverses
        traverses', by simp, fun distinct => ?_⟩
      obtain ⟨fresh, distinct⟩ := List.nodup_cons.mp distinct
      have own := claimed ▸ claim_qualify_eq_empty_iff within key taken
      refine List.forall_mem_cons.mpr ⟨by simpa using own, List.forall_mem_append.mpr ⟨?_, ?_⟩⟩
      · have ids : rowIds innerRows = inner.ids := by
          have unmarked := congrArg (List.map Node.id) scope
          rwa [List.map_map, List.map_map] at unmarked
        refine NamedExcept.below traverses fun r member empty => inside.empty_not_mem ?_
        exact empty ▸ ids ▸ List.mem_map_of_mem (List.mem_map_of_mem member)
      · refine (named distinct).after traverses' fresh ?_ fun again => ?_
        · rw [inside.taken_eq]
          exact fun x old => List.mem_append_right _ (List.mem_cons_of_mem _ old)
        · rw [inside.taken_eq, List.mem_append, List.mem_reverse, List.mem_cons] at again
          obtain nested | here | old := again
          · exact absurd nested inside.empty_not_mem
          · exact .inr (own.mp here.symm).2.1
          · exact .inl old

end

/-! ## Groups and their rows -/

/-- A row stands under that of the group whose scope has its key. -/
structure Row.Under (r around : Row) : Prop where
  holds : around.2.isGroup = true
  path : ∃ key, r.1.path = around.1.path ++ [key]
  parent : r.2.parent = some around.2.id

/-- The nodes of some rows stand under `parent` or under each other. -/
def Standing (parent : Option String) (rows : List Row) : Prop :=
  ∀ n ∈ drawn rows, n.parent = parent ∨ ∃ p ∈ rowIds rows, n.parent = some p

theorem Standing.countP_eq_zero {parent : Option String} {rows : List Row} {p : String}
    (h : Standing parent rows) (other : parent ≠ some p) (fresh : p ∉ rowIds rows) :
    (drawn rows).countP (·.parent = some p) = 0 := by
  refine List.countP_eq_zero.mpr fun n member => ?_
  rw [decide_eq_true_iff]
  intro above
  obtain top | ⟨q, known, above'⟩ := h n member
  · exact other (top ▸ above)
  · exact fresh (Option.some.inj (above.symm.trans above') ▸ known)

namespace Traverses

variable {parent : Option String} {specs : List (String × NodeSpec)} {rows : List Row} {r : Row}
variable {body : Flow} {p : String}

/-- A node shows its entry, and it is a group if the entry embeds a scope. -/
theorem shows (h : Traverses parent specs rows) :
    ∀ r ∈ rows, r.2.spec = r.1.spec ∧
      (r.2.isGroup = true ↔ ∃ body, r.1.spec.embedded? = some body) := by
  induction h with
  | nil => exact fun r member => absurd member List.not_mem_nil
  | plain closed single top after ih =>
      exact List.forall_mem_cons.mpr ⟨⟨rfl, by simp [single, closed]⟩, ih⟩
  | group embeds holds top inside after ihInside ihAfter =>
      refine List.forall_mem_cons.mpr ⟨⟨rfl, by simp [holds, embeds]⟩, ?_⟩
      exact List.forall_mem_append.mpr ⟨List.forall_mem_map.mpr ihInside, ihAfter⟩

/-- A node stands under the parent of its scope, or after the group whose scope has its key and
under that group. -/
theorem outer_or_under (h : Traverses parent specs rows) :
    ∀ r ∈ rows, (∃ key, r.1.path = [key]) ∧ r.2.parent = parent ∨
      ∃ around, [around, r].Sublist rows ∧ r.Under around := by
  induction h with
  | nil => exact fun r member => absurd member List.not_mem_nil
  | plain closed single top after ih =>
      refine List.forall_mem_cons.mpr ⟨.inl ⟨⟨_, rfl⟩, top⟩, fun r member => ?_⟩
      exact (ih r member).imp_right fun ⟨around, before, under⟩ => ⟨around, before.cons _, under⟩
  | @group parent key n body rest inner rows embeds holds top inside after ihInside ihAfter =>
      refine List.forall_mem_cons.mpr ⟨.inl ⟨⟨_, rfl⟩, top⟩, List.forall_mem_append.mpr ⟨?_, ?_⟩⟩
      · refine List.forall_mem_map.mpr fun r member => .inr ?_
        obtain ⟨⟨own, path⟩, above⟩ | ⟨around, before, holds', ⟨own, path⟩, above⟩ :=
          ihInside r member
        · refine ⟨(⟨[key], n.spec⟩, n), ?_, holds, ⟨own, congrArg (key :: ·) path⟩, above⟩
          refine .cons_cons _ (List.singleton_sublist.mpr (List.mem_append_left _ ?_))
          exact List.mem_map_of_mem member
        · refine ⟨around.below [key], ?_, holds', ⟨own, congrArg (key :: ·) path⟩, above⟩
          exact ((before.map _).trans (List.sublist_append_left _ _)).cons _
      · intro r member
        refine (ihAfter r member).imp_right fun ⟨around, before, under⟩ => ⟨around, ?_, under⟩
        exact (before.trans (List.sublist_append_right _ _)).cons _

/-- The nodes of a scope stand under its parent or under each other. -/
theorem standing (h : Traverses parent specs rows) : Standing parent rows := by
  refine List.forall_mem_map.mpr fun r member => ?_
  obtain ⟨-, above⟩ | ⟨around, before, under⟩ := h.outer_or_under r member
  · exact .inl above
  · have known : around ∈ rows := before.subset List.mem_cons_self
    exact .inr ⟨around.2.id, List.mem_map_of_mem (List.mem_map_of_mem known), under.parent⟩

/-- What a scope embeds lies in the group around it. -/
theorem inside_parent (h : Traverses parent specs rows) (outer : parent = some p) :
    ∀ x ∈ rowIds rows, Inside (drawn rows) p x := by
  induction h generalizing p with
  | nil => exact fun x member => absurd member List.not_mem_nil
  | plain closed single top after ih =>
      refine List.forall_mem_cons.mpr
        ⟨.child List.mem_cons_self (top.trans outer) .self, fun x later => ?_⟩
      exact (ih outer x later).mono (List.subset_cons_self _ _)
  | @group parent key n body rest inner rows embeds holds top inside after ihInside ihAfter =>
      rw [rowIds_cons, rowIds_append, rowIds_below, drawn_cons, drawn_append, drawn_below]
      have own : Inside (n :: (drawn inner ++ drawn rows)) p n.id :=
        .child List.mem_cons_self (top.trans outer) .self
      refine List.forall_mem_cons.mpr ⟨own, List.forall_mem_append.mpr ⟨fun x nested => ?_, ?_⟩⟩
      · refine own.trans ((ihInside rfl x nested).mono ?_)
        exact fun m known => List.mem_cons_of_mem _ (List.mem_append_left _ known)
      · refine fun x later => (ihAfter outer x later).mono ?_
        exact fun m known => List.mem_cons_of_mem _ (List.mem_append_right _ known)

/-- A scope has as many nodes right under its parent as it has keys. -/
theorem countP_parent (h : Traverses parent specs rows) (outer : parent = some p)
    (fresh : p ∉ rowIds rows) : (drawn rows).countP (·.parent = some p) = specs.length := by
  induction h with
  | nil => rfl
  | plain closed single top after ih =>
      obtain ⟨-, fresh⟩ := not_or.mp (List.mem_cons.not.mp fresh)
      rw [drawn_cons, List.countP_cons, ih outer fresh]
      simp [top, outer]
  | group embeds holds top inside after ihInside ihAfter =>
      rw [rowIds_cons, rowIds_append, rowIds_below, List.mem_cons, List.mem_append, not_or,
        not_or] at fresh
      obtain ⟨other, inner_fresh, fresh⟩ := fresh
      have nested := inside.standing.countP_eq_zero
        (fun same => other (Option.some.inj same).symm) inner_fresh
      rw [drawn_cons, drawn_append, drawn_below, List.countP_cons, List.countP_append, nested,
        ihAfter outer fresh]
      simp [top, outer]

end Traverses

/-- Rows have different identifiers, and none of them is that of the parent around them. -/
structure Distinct (parent : Option String) (rows : List Row) : Prop where
  nodup : (rowIds rows).Nodup
  outer : ∀ p ∈ rowIds rows, parent ≠ some p

namespace Distinct

variable {parent : Option String} {rows rows' inner : List Row} {r : Row} {e : Listed} {n : Node}
variable {path : List String}

theorem left (h : Distinct parent (rows ++ rows')) : Distinct parent rows where
  nodup := (List.nodup_append'.mp (rowIds_append ▸ h.nodup)).1
  outer := fun p known => h.outer p (rowIds_append ▸ List.mem_append_left _ known)

theorem right (h : Distinct parent (rows ++ rows')) : Distinct parent rows' where
  nodup := (List.nodup_append'.mp (rowIds_append ▸ h.nodup)).2.1
  outer := fun p known => h.outer p (rowIds_append ▸ List.mem_append_right _ known)

theorem disjoint (h : Distinct parent (rows ++ rows')) :
    List.Disjoint (rowIds rows) (rowIds rows') :=
  (List.nodup_append'.mp (rowIds_append ▸ h.nodup)).2.2

/-- The rows inside a group differ from each other and from the group. -/
theorem inside (h : Distinct parent ((e, n) :: inner.map (Row.below path))) :
    Distinct (some n.id) inner := by
  have nodup := h.nodup
  rw [rowIds_cons, rowIds_below, List.nodup_cons] at nodup
  exact ⟨nodup.2, fun p known same => nodup.1 (Option.some.inj same ▸ known)⟩

theorem away (h : Distinct parent rows) (member : r ∈ rows) : parent ≠ some r.2.id :=
  h.outer _ (List.mem_map_of_mem (List.mem_map_of_mem member))

end Distinct

/-- The rows of a group follow its own one. They are what lies under it, and its children are as
many as its scope has keys. -/
structure Followed (parent : Option String) (rows : List Row) (r : Row) (body : Flow)
    (inner : List Row) : Prop where
  block : ∃ before after, rows = before ++ r :: (inner.map (Row.below r.1.path) ++ after)
  traverses : Traverses (some r.2.id) body.entries inner
  lies : Block (drawn rows) parent r.2.id { x | x = r.2.id ∨ x ∈ rowIds inner }
  children : (drawn rows).countP (·.parent = some r.2.id) = body.entries.length

namespace Followed

variable {parent : Option String} {specs : List (String × NodeSpec)} {rows inner more : List Row}
variable {r : Row} {body : Flow} {key : String} {n : Node}

/-- Rows of other keys in front change nothing. -/
theorem prepend (h : Followed parent rows r body inner) (others : Standing parent more)
    (apart : List.Disjoint (rowIds more) (rowIds rows)) (outer : parent ≠ some r.2.id) :
    Followed parent (more ++ rows) r body inner where
  block := by
    obtain ⟨before, after, split⟩ := h.block
    exact ⟨more ++ before, after, by rw [split, List.append_assoc]⟩
  traverses := h.traverses
  lies := by
    have split : ∀ n, n ∈ drawn (more ++ rows) ↔ n ∈ drawn rows ∨ n ∈ drawn more := fun n => by
      rw [drawn_append, List.mem_append, or_comm]
    exact h.lies.extend split (fun x known again => apart again (h.lies.known x known)) others
  children := by
    have none := others.countP_eq_zero outer fun again =>
      apart again (h.lies.known _ h.lies.self)
    rw [drawn_append, List.countP_append, none, h.children, Nat.zero_add]

/-- Rows of other keys behind change nothing. -/
theorem append (h : Followed parent rows r body inner) (others : Standing parent more)
    (apart : List.Disjoint (rowIds rows) (rowIds more)) (outer : parent ≠ some r.2.id) :
    Followed parent (rows ++ more) r body inner where
  block := by
    obtain ⟨before, after, split⟩ := h.block
    exact ⟨before, after ++ more, by simp [split]⟩
  traverses := h.traverses
  lies := by
    have split : ∀ n, n ∈ drawn (rows ++ more) ↔ n ∈ drawn rows ∨ n ∈ drawn more := fun n => by
      rw [drawn_append, List.mem_append]
    exact h.lies.extend split (fun x known again => apart (h.lies.known x known) again) others
  children := by
    have none := others.countP_eq_zero outer fun again =>
      apart (h.lies.known _ h.lies.self) again
    rw [drawn_append, List.countP_append, none, h.children, Nat.add_zero]

/-- A group around the scope stands in front of it. -/
theorem wrap (h : Followed (some n.id) rows r body inner) (fresh : n.id ∉ rowIds rows)
    (top : n.parent = parent) (outer : parent ≠ some r.2.id) (e : Listed) :
    Followed parent ((e, n) :: rows.map (Row.below [key])) (r.below [key]) body inner where
  block := by
    obtain ⟨before, after, split⟩ := h.block
    refine ⟨(e, n) :: before.map (Row.below [key]), after.map (Row.below [key]), ?_⟩
    have twice : (inner.map (Row.below r.1.path)).map (Row.below [key]) =
        inner.map (Row.below (r.below [key]).1.path) := by
      rw [List.map_map]
      exact List.map_congr_left fun r' _ => Prod.ext (Listed.below_below r'.1) rfl
    rw [split, List.map_append, List.map_cons, List.map_append, twice, List.cons_append]
  traverses := h.traverses
  lies := by
    rw [drawn_cons, drawn_below]
    exact h.lies.wrap (fun again => fresh (h.lies.known _ again)) top
  children := by
    rw [drawn_cons, drawn_below]
    exact (List.countP_cons_of_neg (by simpa [top, Row.below] using outer)).trans h.children

/-- A group is followed by the rows of its own scope. -/
theorem own (inside : Traverses (some n.id) body.entries inner) (fresh : n.id ∉ rowIds inner)
    (top : n.parent = parent) (outer : parent ≠ some n.id) (spec : NodeSpec) :
    Followed parent ((⟨[key], spec⟩, n) :: inner.map (Row.below [key])) (⟨[key], spec⟩, n) body
      inner where
  block := ⟨[], [], by simp⟩
  traverses := inside
  lies := by
    rw [drawn_cons, drawn_below]
    refine ⟨fun x known => List.mem_cons.mpr known, .inl rfl, ?_, ?_⟩
    · rintro x (rfl | nested)
      · exact .self
      · exact (inside.inside_parent rfl x nested).mono (List.subset_cons_self _ _)
    · intro m member p _ above
      obtain rfl | nested := List.mem_cons.mp member
      · exact .inr (top ▸ above)
      · exact .inl (.inr (List.mem_map_of_mem nested))
  children := by
    rw [drawn_cons, drawn_below, List.countP_cons_of_neg (by simpa [top] using outer)]
    exact inside.countP_parent rfl fresh

/-- In front of each other, rows of different keys follow their groups as they do alone. -/
theorem exists_of_append {front back : List Row} (distinct : Distinct parent (front ++ back))
    (first : Standing parent front) (second : Standing parent back) (member : r ∈ front ++ back)
    (here : r ∈ front → ∃ inner, Followed parent front r body inner)
    (there : r ∈ back → ∃ inner, Followed parent back r body inner) :
    ∃ inner, Followed parent (front ++ back) r body inner := by
  have away := distinct.away member
  obtain early | later := List.mem_append.mp member
  · exact (here early).imp fun inner h => h.append second distinct.disjoint away
  · exact (there later).imp fun inner h => h.prepend first distinct.disjoint away

/-- The rows of a group follow their groups as they do in its scope, and all of them follow the
group itself. -/
theorem exists_around {around : Flow} (embeds : n.spec.embedded? = some around)
    (inside : Traverses (some n.id) around.entries inner) (top : n.parent = parent)
    (distinct : Distinct parent ((⟨[key], n.spec⟩, n) :: inner.map (Row.below [key])))
    (member : r ∈ (⟨[key], n.spec⟩, n) :: inner.map (Row.below [key]))
    (holds : r.1.spec.embedded? = some body)
    (nested : ∀ r ∈ inner, r.1.spec.embedded? = some body →
      ∃ inner', Followed (some n.id) inner r body inner') :
    ∃ inner', Followed parent ((⟨[key], n.spec⟩, n) :: inner.map (Row.below [key])) r body
      inner' := by
  have fresh : n.id ∉ rowIds inner := fun again => distinct.inside.outer n.id again rfl
  have away := distinct.away member
  obtain rfl | later := List.mem_cons.mp member
  · obtain rfl := Option.some.inj (embeds.symm.trans holds)
    exact ⟨inner, .own inside fresh top away n.spec⟩
  · obtain ⟨r, listed, rfl⟩ := List.mem_map.mp later
    obtain ⟨inner', followed⟩ := nested r listed holds
    exact ⟨inner', followed.wrap fresh top away _⟩

end Followed

/-- Every row of a group is followed by the rows of its scope. -/
theorem Traverses.exists_followed {parent : Option String} {specs : List (String × NodeSpec)}
    {rows : List Row} {r : Row} {body : Flow} (h : Traverses parent specs rows)
    (distinct : Distinct parent rows) (member : r ∈ rows)
    (embeds : r.1.spec.embedded? = some body) : ∃ inner, Followed parent rows r body inner := by
  induction h generalizing r body with
  | nil => exact absurd member List.not_mem_nil
  | @plain parent key n rest rows closed single top after ih =>
      have alone : Traverses parent [(key, n.spec)] [(⟨[key], n.spec⟩, n)] :=
        .plain closed single top .nil
      have distinct : Distinct parent ([(⟨[key], n.spec⟩, n)] ++ rows) := distinct
      refine Followed.exists_of_append distinct alone.standing after.standing member
        (fun here => ?_) (fun later => ih distinct.right later embeds)
      obtain rfl := List.mem_singleton.mp here
      rw [closed] at embeds
      contradiction
  | @group parent key n around rest inner rows embeds' holds top inside after ihInside ihAfter =>
      have alone : Traverses parent [(key, n.spec)]
          ((⟨[key], n.spec⟩, n) :: (inner.map (Row.below [key]) ++ [])) :=
        .group embeds' holds top inside .nil
      rw [List.append_nil] at alone
      have distinct : Distinct parent
          ((⟨[key], n.spec⟩, n) :: inner.map (Row.below [key]) ++ rows) := distinct
      refine Followed.exists_of_append distinct alone.standing after.standing member
        (fun here => ?_) (fun later => ihAfter distinct.right later embeds)
      exact Followed.exists_around embeds' inside top distinct.left here embeds
        fun r listed holds => ihInside distinct.left.inside listed holds

/-! ## Graphs of flows -/

/-- A group tells how many keys its scope has. -/
theorem exists_child_count {spec : NodeSpec} {body : Flow} (embeds : spec.embedded? = some body) :
    ∃ shown, Diagram.details spec = .ok shown ∧
      shown.get? "child_count" = some (.int body.entries.length) := by
  have kind : spec.kind = .subflow := by_contra fun other => by
    rw [NodeSpec.embedded?, if_neg other] at embeds
    contradiction
  have held : spec.subflow.value? = some body := by rwa [NodeSpec.embedded?, if_pos kind] at embeds
  refine ⟨Diagram.subflowDetails spec, by rw [Diagram.details, kind], ?_⟩
  rw [Diagram.subflowDetails, held]
  rfl

/-- The nodes of a graph stand in the order of the outline of a flow, each in the group of its
scope. -/
structure IsPreorder (flow : Flow) (g : Graph) (rows : List Row) : Prop where
  listed : rows.map Prod.fst = outline flow.entries
  drawn : rows.map Prod.snd = g.nodes
  shows : ∀ r ∈ rows, r.2.spec = r.1.spec ∧
    (r.2.isGroup = true ↔ ∃ body, r.1.spec.embedded? = some body)
  nested : ∀ r ∈ rows, (∃ key, r.1.path = [key]) ∧ r.2.parent = none ∨
    ∃ around, [around, r].Sublist rows ∧ r.Under around
  blocks : ∀ r ∈ rows, ∀ body, r.1.spec.embedded? = some body → ∃ before inner after,
    rows = before ++ r :: (inner ++ after) ∧
      inner.map Prod.fst = (outline body.entries).map (Listed.below r.1.path) ∧
      ∀ x, Inside g.nodes r.2.id x ↔ x = r.2.id ∨ x ∈ rowIds inner
  counts : ∀ r ∈ rows, r.2.isGroup = true → ∃ shown, Diagram.details r.2.spec = .ok shown ∧
    shown.get? "child_count" = some (.int (g.nodes.countP (·.parent = some r.2.id)))

/-- Rows without a parent around them are in preorder. -/
theorem Traverses.isPreorder {flow : Flow} {g : Graph} {rows : List Row}
    (traverses : Traverses none flow.entries rows) (nodes : Graph.drawn rows = g.nodes)
    (distinct : g.ids.Nodup) : IsPreorder flow g rows := by
  have followed {r : Row} {body : Flow} (member : r ∈ rows)
      (embeds : r.1.spec.embedded? = some body) : ∃ inner, Followed none rows r body inner := by
    refine traverses.exists_followed ⟨?_, by simp⟩ member embeds
    rwa [rowIds, nodes]
  refine ⟨traverses.listed, nodes, traverses.shows, traverses.outer_or_under, ?_, ?_⟩
  · intro r member body embeds
    obtain ⟨inner, followed⟩ := followed member embeds
    obtain ⟨before, after, split⟩ := followed.block
    refine ⟨before, inner.map (Row.below r.1.path), after, split, ?_, fun x => ?_⟩
    · rw [← followed.traverses.listed, List.map_map, List.map_map]
      rfl
    · rw [rowIds_below, ← nodes]
      exact followed.lies.inside_iff (by simp)
  · intro r member holds
    obtain ⟨same, group⟩ := traverses.shows r member
    obtain ⟨body, embeds⟩ := group.mp holds
    obtain ⟨inner, followed⟩ := followed member embeds
    rw [same, ← nodes, followed.children]
    exact exists_child_count embeds

/-- The graph of a flow is the preorder traversal of the scopes in it: it has one node for
each path of keys, and what stands in a group follows it in one block and is counted by it. -/
theorem ofFlow_preorder {flow : Flow} {g : Graph} (keyed : Flow.Keyed flow)
    (h : ofFlow flow = .ok g) :
    ∃ rows, IsPreorder flow g rows ∧ (rows.map fun r => r.1.path).Nodup ∧ g.ids.Nodup ∧
      ∀ path spec, (∃ r ∈ rows, r.1 = ⟨path, spec⟩) ↔ Reaches flow.entries path spec := by
  obtain ⟨inner, taken, expanded, like⟩ := exists_expand_of_ofFlow h
  obtain ⟨emitted, ts, run, -, rfl⟩ := expand_eq_ok_iff.mp expanded
  obtain ⟨rows, traverses, nodes, -⟩ := run.exists_rows like.nodes
  have distinct : g.ids.Nodup := (isForest_of_ofFlow h).distinct
  refine ⟨rows, traverses.isPreorder nodes distinct, ?_, distinct, fun path spec => ?_⟩
  · exact traverses.nodup_paths keyed.distinct fun entry listed _ => keyed.embedded listed
  · rw [← mem_outline_iff, ← traverses.listed, List.mem_map]

/-- The group `review` has two nodes in it, and one of them is a group of two more. -/
theorem ofFlow_preorder_reviewing :
    Flow.Keyed reviewing ∧ ∃ g, ofFlow reviewing = .ok g ∧
      g.ids = ["fetch", "review", "review_draft", "review_check", "review_check_pass",
        "review_check_fail", "review_draft_2"] ∧
      ∃ rows, IsPreorder reviewing g rows ∧ (rows.map fun r => r.1.path).Nodup ∧ g.ids.Nodup ∧
        ∀ path spec, (∃ r ∈ rows, r.1 = ⟨path, spec⟩) ↔ Reaches reviewing.entries path spec :=
  ⟨keyed_reviewing, _, rfl, by decide, ofFlow_preorder keyed_reviewing rfl⟩

end FlowDiagram.Graph
