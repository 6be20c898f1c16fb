import FlowDiagram.Graph.Basic
import FlowDiagram.Proofs.Layout.Nesting
/-!
# Groups are as large as what they hold

Inside its padding a group is filled by its children: the first and the last column touch
the padding on the left and on the right, and the tallest column touches it above and below.
The outermost nodes fill the plane from its origin on.

Everything is said of the places that a layout reports. These are seen from the upper left
corner of the group, so its children are moved back by that corner.
-/

namespace FlowDiagram.Layout

open Parents

variable {ι : Type} [DecidableEq ι] {s : Spacing ℚ} {items : List (Item ι)}
variable {edges : List (ι × ι)} {x p : ι}

/-- The rectangle of a node at its reported place. -/
def reportedSpot (s : Spacing ℚ) (items : List (Item ι)) (edges : List (ι × ι)) (id : ι) :
    Spot ι ℚ :=
  ⟨id, (reported s items edges id).corner, (reported s items edges id).extent⟩

theorem paddingLeft_add_inside (s : Spacing ℚ) (extent : Extent ℚ) :
    s.paddingLeft + (inside s extent).width = extent.width - s.paddingRight := by
  rw [inside]
  ring

theorem paddingTop_add_inside (s : Spacing ℚ) (extent : Extent ℚ) :
    s.paddingTop + (inside s extent).height = extent.height - s.paddingBottom := by
  rw [inside]
  ring

section

variable (distinct : (items.map (·.id)).Nodup) (sound : s.Sound)
include distinct sound

/-- A reported place is the one in the plane, moved back by the corner of the parent. -/
theorem reportedSpot_of_lookup (up : (kept items).lookup x = some p) :
    reportedSpot s items edges x = (spotOf (spots s items edges) x).moved
      ⟨-(spotOf (spots s items edges) p).corner.x, -(spotOf (spots s items edges) p).corner.y⟩ := by
  have same := (spotOf_mem edges distinct sound (mem_of_lookup_kept distinct up).1).2
  rw [reportedSpot, reported_of_lookup distinct up, Spot.moved, same]
  dsimp only
  rw [neg_add_eq_sub, neg_add_eq_sub]
  rfl

variable (edges) in
/-- Seen from its corner, a group is filled by its children inside the padding. -/
theorem fill_children (filled : children items (some p) ≠ []) :
    Fill ((children items (some p)).map (reportedSpot s items edges))
      ⟨s.paddingLeft, s.paddingTop⟩ (inside s (reported s items edges p).extent) := by
  obtain ⟨child, member⟩ := List.exists_mem_of_ne_nil _ filled
  have known := (mem_of_lookup_kept distinct (mem_children.mp member).2).2
  have fill := ((placed_children edges distinct sound filled).fill sound filled).moved
    ⟨-(spotOf (spots s items edges) p).corner.x, -(spotOf (spots s items edges) p).corner.y⟩
  have seen : ((children items (some p)).map (spotOf (spots s items edges))).map
      (Spot.moved · ⟨-(spotOf (spots s items edges) p).corner.x,
        -(spotOf (spots s items edges) p).corner.y⟩) =
      (children items (some p)).map (reportedSpot s items edges) := by
    rw [List.map_map]
    apply List.map_congr_left
    intro x member
    exact (reportedSpot_of_lookup distinct sound (mem_children.mp member).2).symm
  rw [seen, padded, neg_add_cancel_left, neg_add_cancel_left] at fill
  rw [extent_reported distinct known]
  exact fill

/-- Outermost nodes are reported at their places in the plane. -/
theorem reportedSpot_of_root (known : x ∈ items.map (·.id)) (free : (kept items).lookup x = none) :
    reportedSpot s items edges x = spotOf (spots s items edges) x := by
  have same := (spotOf_mem edges distinct sound known).2
  rw [reportedSpot, reported_of_root distinct known free]
  congr 1
  exact same.symm

variable (edges) in
/-- The outermost nodes fill the plane from its origin on. -/
theorem exists_fill_roots (filled : children items none ≠ []) :
    ∃ extent, Fill ((children items none).map (reportedSpot s items edges)) ⟨0, 0⟩ extent := by
  obtain ⟨extent, placed⟩ := placed_roots edges distinct sound
  have seen : (children items none).map (spotOf (spots s items edges)) =
      (children items none).map (reportedSpot s items edges) := by
    apply List.map_congr_left
    intro x member
    obtain ⟨known, free⟩ := mem_children.mp member
    exact (reportedSpot_of_root distinct sound known free).symm
  exact ⟨extent, seen ▸ placed.fill sound filled⟩

end

theorem children_none_ne_nil (distinct : (items.map (·.id)).Nodup) (filled : items ≠ []) :
    children items none ≠ [] := by
  obtain ⟨item, member⟩ := List.exists_mem_of_ne_nil _ filled
  obtain ⟨root, free, lies⟩ := (grounded_kept items).exists_root item.id
  have known := mem_of_within_kept distinct lies (List.mem_map_of_mem member)
  exact List.ne_nil_of_mem (mem_children.mpr ⟨known, free⟩)

end FlowDiagram.Layout

namespace FlowDiagram.Graph

open Layout

/-- The children of a node touch its padding on each side, and the outermost nodes begin at
the origin. -/
theorem layout_encloses (g : Graph) {s : Spacing ℚ} (accepted : Settings.Accepted s)
    (padding : s.Padded) (distinct : g.ids.Nodup) :
    (∀ p, children g.items (some p) ≠ [] →
      IsLeast { x | ∃ c ∈ children g.items (some p), (reported s g.items g.arcs c).corner.x = x }
        s.paddingLeft ∧
      IsGreatest { x | ∃ c ∈ children g.items (some p),
          (reported s g.items g.arcs c).corner.x + (reported s g.items g.arcs c).extent.width = x }
        ((reported s g.items g.arcs p).extent.width - s.paddingRight) ∧
      IsLeast { y | ∃ c ∈ children g.items (some p), (reported s g.items g.arcs c).corner.y = y }
        s.paddingTop ∧
      IsGreatest { y | ∃ c ∈ children g.items (some p),
          (reported s g.items g.arcs c).corner.y + (reported s g.items g.arcs c).extent.height = y }
        ((reported s g.items g.arcs p).extent.height - s.paddingBottom)) ∧
    (g.nodes ≠ [] →
      IsLeast { x | ∃ c ∈ children g.items none, (reported s g.items g.arcs c).corner.x = x } 0 ∧
      IsLeast { y | ∃ c ∈ children g.items none, (reported s g.items g.arcs c).corner.y = y }
        0) := by
  have sound := Spacing.sound_of_accepted accepted padding
  rw [← ids_items] at distinct
  constructor
  · intro p filled
    obtain ⟨left, right, top, bottom⟩ := fill_children g.arcs distinct sound filled
    simp only [List.mem_map, exists_exists_and_eq_and] at left right top bottom
    rw [paddingLeft_add_inside] at right
    rw [paddingTop_add_inside] at bottom
    exact ⟨left, right, top, bottom⟩
  · intro filled
    have some := children_none_ne_nil distinct (by simpa [items] using filled)
    obtain ⟨extent, left, -, top, -⟩ := exists_fill_roots g.arcs distinct sound some
    simp only [List.mem_map, exists_exists_and_eq_and] at left top
    exact ⟨left, top⟩

/-- A group whose two columns have different heights, beside a single node. -/
def uneven : Graph where
  nodes := [
    { id := "team", isGroup := true, label := "" },
    { id := "lead", parent := some "team", label := "" },
    { id := "desk", parent := some "team", label := "" },
    { id := "shop", parent := some "team", label := "" },
    { id := "home", label := "" }]
  edges := [⟨"", "lead", "desk", none⟩, ⟨"", "lead", "shop", none⟩, ⟨"", "shop", "home", none⟩]

theorem layout_encloses_uneven :
    Settings.Accepted Settings.customaryDistances ∧ Settings.customaryDistances.Padded ∧
      uneven.ids.Nodup ∧ children uneven.items (some "team") = ["lead", "desk", "shop"] ∧
      children uneven.items none = ["team", "home"] ∧
      IsGreatest { x | ∃ c ∈ children uneven.items (some "team"),
          (reported Settings.customaryDistances uneven.items uneven.arcs c).corner.x +
            (reported Settings.customaryDistances uneven.items uneven.arcs c).extent.width = x }
        ((reported Settings.customaryDistances uneven.items uneven.arcs "team").extent.width -
          Settings.customaryDistances.paddingRight) ∧
      IsLeast { y | ∃ c ∈ children uneven.items none,
        (reported Settings.customaryDistances uneven.items uneven.arcs c).corner.y = y } 0 := by
  have distinct : uneven.ids.Nodup := by decide
  obtain ⟨groups, roots⟩ := layout_encloses uneven Settings.accepted_customaryDistances
    Spacing.padded_customaryDistances distinct
  refine ⟨Settings.accepted_customaryDistances, Spacing.padded_customaryDistances, distinct, rfl,
    rfl, (groups "team" ?_).2.1, (roots (List.cons_ne_nil _ _)).2⟩
  exact List.cons_ne_nil _ _

end FlowDiagram.Graph
