import FlowDiagram.Proofs.Layout.Parents
/-!
# The forest of a layout

The nodes have different identifiers here. Then the parents that count are those that the
nodes name, as far as these are other nodes of the list (`lookup_declared`), and keeping
some of them leads nowhere else. The children of a node are the nodes that keep it as their
parent.

A chain of kept parents is not longer than the list of nodes. Boxes are grown that deep, so
no node is left out.
-/

namespace FlowDiagram.Layout

variable {ι : Type} [DecidableEq ι]

namespace Parents

variable {parents : Parents ι} {items : List (Item ι)} {item : Item ι} {id x p : ι}

theorem lookup_name (id parent : ι) (parents : Parents ι) (x : ι) :
    List.lookup x (name id parent parents) = if x = id then some parent else parents.lookup x := by
  induction parents with
  | nil => rw [name, lookup_cons_eq]
  | cons entry rest ih =>
      obtain ⟨i, p⟩ := entry
      rw [name]
      split
      · next same =>
          rw [lookup_cons_eq, lookup_cons_eq, same]
          split <;> rfl
      · next other =>
          rw [lookup_cons_eq, lookup_cons_eq, ih]
          by_cases hit : x = i
          · rw [if_pos hit, if_neg (hit ▸ other), if_pos hit]
          · rw [if_neg hit, if_neg hit]

/-- The parent that a node names, if it is another node of a list. -/
def usable? (ids : List ι) (item : Item ι) : Option ι :=
  item.parent.filter fun p => p ∈ ids ∧ p ≠ item.id

/-- Name the usable parent of a node. -/
def declare (ids : List ι) (parents : Parents ι) (item : Item ι) : Parents ι :=
  match usable? ids item with
  | some p => name item.id p parents
  | none => parents

theorem declared_eq (items : List (Item ι)) :
    declared items = items.foldl (declare (items.map (·.id))) [] := by
  rw [declared]
  congr 1
  funext parents item
  obtain ⟨id, _ | parent⟩ := item
  · rfl
  · rw [declare, usable?]
    by_cases counts : parent ∈ items.map (·.id) ∧ parent ≠ id
    · simp only [Option.filter_some, decide_eq_true counts, if_true, if_pos counts]
    · simp only [Option.filter_some, decide_eq_false counts, if_neg counts]
      rfl

theorem lookup_declare (ids : List ι) (parents : Parents ι) (item : Item ι) (x : ι) :
    (declare ids parents item).lookup x =
      if x = item.id then (usable? ids item).or (parents.lookup x) else parents.lookup x := by
  rw [declare]
  cases usable? ids item with
  | none => simp
  | some p => exact lookup_name _ _ _ _

theorem lookup_foldl_declare_of_not_mem (ids : List ι) (parents : Parents ι)
    (absent : x ∉ items.map (·.id)) :
    (items.foldl (declare ids) parents).lookup x = parents.lookup x := by
  induction items generalizing parents with
  | nil => rfl
  | cons first rest ih =>
      obtain ⟨other, absent⟩ := not_or.mp (List.mem_cons.not.mp absent)
      rw [List.foldl_cons, ih _ absent, lookup_declare, if_neg other]

theorem lookup_foldl_declare (ids : List ι) (parents : Parents ι)
    (distinct : (items.map (·.id)).Nodup) (member : item ∈ items)
    (fresh : parents.lookup item.id = none) :
    (items.foldl (declare ids) parents).lookup item.id = usable? ids item := by
  induction items generalizing parents with
  | nil => exact absurd member List.not_mem_nil
  | cons first rest ih =>
      obtain ⟨absent, distinct⟩ := List.nodup_cons.mp distinct
      rw [List.foldl_cons]
      obtain rfl | later := List.mem_cons.mp member
      · rw [lookup_foldl_declare_of_not_mem ids _ absent, lookup_declare, if_pos rfl, fresh,
          Option.or_none]
      · have other : item.id ≠ first.id := fun same =>
          absent (List.mem_map.mpr ⟨item, later, same⟩)
        refine ih _ distinct later ?_
        rw [lookup_declare, if_neg other, fresh]

/-- A node has the parent that it names if this is another node of the list. -/
theorem lookup_declared (distinct : (items.map (·.id)).Nodup) (member : item ∈ items) :
    (declared items).lookup item.id = usable? (items.map (·.id)) item := by
  rw [declared_eq]
  exact lookup_foldl_declare _ _ distinct member rfl

theorem mem_of_lookup_declared (distinct : (items.map (·.id)).Nodup)
    (up : (declared items).lookup x = some p) : x ∈ items.map (·.id) ∧ p ∈ items.map (·.id) := by
  by_cases known : x ∈ items.map (·.id)
  · obtain ⟨item, member, rfl⟩ := List.mem_map.mp known
    rw [lookup_declared distinct member] at up
    have counts := (Option.filter_eq_some_iff.mp up).2
    exact ⟨known, (of_decide_eq_true counts).1⟩
  · rw [declared_eq, lookup_foldl_declare_of_not_mem _ _ known] at up
    contradiction

theorem lookup_kept (up : (kept items).lookup x = some p) : (declared items).lookup x = some p := by
  rw [kept_eq] at up
  exact lookup_cut _ _ up

theorem mem_of_lookup_kept (distinct : (items.map (·.id)).Nodup)
    (up : (kept items).lookup x = some p) : x ∈ items.map (·.id) ∧ p ∈ items.map (·.id) :=
  mem_of_lookup_declared distinct (lookup_kept up)

/-- Above a node of the list there are only nodes of the list. -/
theorem mem_of_within_kept (distinct : (items.map (·.id)).Nodup)
    (lies : Within (kept items) p x) (known : x ∈ items.map (·.id)) : p ∈ items.map (·.id) := by
  induction lies with
  | self => exact known
  | step up above ih => exact ih (mem_of_lookup_kept distinct up).2

theorem length_chain_kept_le (distinct : (items.map (·.id)).Nodup) {chain : List ι}
    (own : Chain (kept items) x chain) (known : x ∈ items.map (·.id)) :
    chain.length ≤ items.length := by
  rw [← List.length_map (f := Item.id)]
  apply own.nodup.length_le_of_subset
  intro p member
  exact mem_of_within_kept distinct (own.mem_iff.mp member) known

end Parents

/-! ## Children -/

namespace Box

variable {items : List (Item ι)} {parents : Parents ι} {parent : Option ι} {x : ι}

theorem mem_childrenOf :
    x ∈ childrenOf items parents parent ↔ x ∈ items.map (·.id) ∧ parents.lookup x = parent := by
  rw [childrenOf, List.mem_filter, decide_eq_true_iff]

theorem nodup_childrenOf (distinct : (items.map (·.id)).Nodup) (parent : Option ι) :
    (childrenOf items parents parent).Nodup :=
  distinct.filter _

end Box

end FlowDiagram.Layout
