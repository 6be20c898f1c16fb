import FlowDiagram.Graph.Basic
import FlowDiagram.Proofs.Layout.Nesting
import Mathlib.Data.List.Pairwise
/-!
# Boxes do not overlap

Two nodes that are not nested in each other lie in two children of one container, or in two
outermost nodes. These keep their distance, because they are columns and stacks of one
arrangement, and a node lies inside each node around it. So the two nodes keep the same
distance, wherever they are.

A layout reports the place of a node from its parent; along a chain of parents the reported
places add up to the place in the plane.
-/

namespace FlowDiagram.Layout

open Parents

section

variable {ι : Type} {s : Spacing ℚ} {spots : List (Spot ι ℚ)} {a b : Spot ι ℚ}
variable {origin : Point ℚ} {extent : Extent ℚ}

/-- A rectangle that holds a frame with its padding holds what fills the frame. -/
theorem Fill.holds (padding : s.Padded)
    (h : Fill spots (padded s a.corner) (inside s a.extent)) (member : b ∈ spots) : a.Holds b where
  left := (le_add_of_nonneg_right padding.left).trans (h.left.2 ⟨b, member, rfl⟩)
  right := by
    have bound := h.right.2 ⟨b, member, rfl⟩
    rw [padded, inside] at bound
    change b.right ≤ a.corner.x + a.extent.width
    linarith [padding.right]
  top := (le_add_of_nonneg_right padding.top).trans (h.top.2 ⟨b, member, rfl⟩)
  bottom := by
    have bound := h.bottom.2 ⟨b, member, rfl⟩
    rw [padded, inside] at bound
    change b.bottom ≤ a.corner.y + a.extent.height
    linarith [padding.bottom]

end

variable {ι : Type} [DecidableEq ι] {s : Spacing ℚ} {items : List (Item ι)}
variable {edges : List (ι × ι)} {x y a b p : ι}

section

variable (distinct : (items.map (·.id)).Nodup) (sound : s.Sound)
include distinct sound

/-! ## Boxes inside each other -/

theorem holds_of_lookup (up : (kept items).lookup x = some p) :
    (spotOf (spots s items edges) p).Holds (spotOf (spots s items edges) x) := by
  have member := mem_children_of_lookup distinct up
  have filled := List.ne_nil_of_mem member
  refine Fill.holds sound.toPadded ?_ (List.mem_map_of_mem member)
  exact (placed_children edges distinct sound filled).fill sound filled

/-- A node lies inside each node around it. -/
theorem holds_of_within (lies : Within (kept items) a x) :
    (spotOf (spots s items edges) a).Holds (spotOf (spots s items edges) x) := by
  induction lies with
  | self => exact .refl _
  | step up above ih => exact ih.trans (holds_of_lookup distinct sound up)

/-! ## Boxes beside each other -/

variable (edges) in
/-- Whatever a node is nested in, the rectangles with its parent are placed in one frame. -/
theorem exists_placed (parent : Option ι) (filled : children items parent ≠ []) :
    ∃ origin extent, Placed s (children items parent) (childArcs items edges parent) origin extent
      ((children items parent).map (spotOf (spots s items edges))) := by
  cases parent with
  | none =>
      obtain ⟨extent, placed⟩ := placed_roots edges distinct sound
      exact ⟨_, extent, placed⟩
  | some p => exact ⟨_, _, placed_children edges distinct sound filled⟩

variable (edges) in
theorem separated_of_beside (ha : a ∈ items.map (·.id)) (hb : b ∈ items.map (·.id))
    (other : a ≠ b) (beside : (kept items).lookup a = (kept items).lookup b) :
    (spotOf (spots s items edges) a).Separated (spotOf (spots s items edges) b) s := by
  have a_child : a ∈ children items ((kept items).lookup b) := mem_children.mpr ⟨ha, beside⟩
  have b_child : b ∈ children items ((kept items).lookup b) := mem_children.mpr ⟨hb, rfl⟩
  obtain ⟨origin, extent, placed⟩ :=
    exists_placed edges distinct sound _ (List.ne_nil_of_mem a_child)
  have apart := List.pairwise_map.mp (placed.separated sound)
  have symmetric : Std.Symm fun a b => (spotOf (spots s items edges) a).Separated
      (spotOf (spots s items edges) b) s := ⟨fun _ _ apart => apart.symm⟩
  exact apart.forall a_child b_child other

/-- Nodes that are not nested in each other keep their distance. -/
theorem separated_of_not_within (hx : x ∈ items.map (·.id)) (hy : y ∈ items.map (·.id))
    (outside : ¬Within (kept items) x y) (outside' : ¬Within (kept items) y x) :
    (spotOf (spots s items edges) x).Separated (spotOf (spots s items edges) y) s := by
  obtain lies | lies | ⟨a, b, other, beside, ha, hb⟩ := (grounded_kept items).within_or_apart x y
  · exact absurd lies outside
  · exact absurd lies outside'
  · have apart := separated_of_beside edges distinct sound
      (mem_of_within_kept distinct ha hx) (mem_of_within_kept distinct hb hy) other beside
    exact apart.mono (holds_of_within distinct sound ha) (holds_of_within distinct sound hb)

end

/-! ## Places seen from the parent -/

/-- Along a chain of parents the reported places add up to a place in the plane. -/
theorem sum_reported (distinct : (items.map (·.id)).Nodup) (known : x ∈ items.map (·.id))
    {chain : List ι} (own : Chain (kept items) x chain) :
    (chain.map fun y => (reported s items edges y).corner.x).sum =
        (spotOf (spots s items edges) x).left ∧
      (chain.map fun y => (reported s items edges y).corner.y).sum =
        (spotOf (spots s items edges) x).top := by
  induction own with
  | top free => simp [reported_of_root distinct known free, Spot.left, Spot.top]
  | step up above ih =>
      obtain ⟨left, top⟩ := ih (mem_of_lookup_kept distinct up).2
      rw [List.map_cons, List.map_cons, List.sum_cons, List.sum_cons, left, top,
        reported_of_lookup distinct up]
      exact ⟨sub_add_cancel _ _, sub_add_cancel _ _⟩

end FlowDiagram.Layout

namespace FlowDiagram.Graph

open Layout Parents

/-- All nodes of a graph get one rectangle each. Any two of them that are not nested in each
other keep the distance of ranks beside each other or the distance of nodes above each other,
and the reported places add up to the corners of the rectangles. -/
theorem layout_separates (g : Graph) {s : Spacing ℚ} (accepted : Settings.Accepted s)
    (padding : s.Padded) (distinct : g.ids.Nodup) :
    ((spots s g.items g.arcs).map Spot.id).Perm g.ids ∧
      (∀ x ∈ g.ids, ∀ y ∈ g.ids, ¬Within (kept g.items) x y → ¬Within (kept g.items) y x →
        (spotOf (spots s g.items g.arcs) x).Separated (spotOf (spots s g.items g.arcs) y) s) ∧
      ∀ x ∈ g.ids, ∃ chain, Chain (kept g.items) x chain ∧
        (chain.map fun y => (reported s g.items g.arcs y).corner.x).sum =
          (spotOf (spots s g.items g.arcs) x).left ∧
        (chain.map fun y => (reported s g.items g.arcs y).corner.y).sum =
          (spotOf (spots s g.items g.arcs) x).top := by
  have sound := Spacing.sound_of_accepted accepted padding
  rw [← ids_items] at distinct ⊢
  refine ⟨ids_spots_perm _ distinct sound, ?_, ?_⟩
  · intro x hx y hy
    exact separated_of_not_within distinct sound hx hy
  · intro x hx
    obtain ⟨chain, own⟩ := grounded_kept g.items x
    exact ⟨chain, own, sum_reported distinct hx own⟩

/-- A group with two nodes, two nodes that name each other as parents, and one that names a
parent which is missing. -/
def tangled : Graph where
  nodes := [
    { id := "team", isGroup := true, label := "" },
    { id := "lead", parent := some "team", label := "" },
    { id := "desk", parent := some "team", label := "" },
    { id := "left", parent := some "right", label := "" },
    { id := "right", parent := some "left", label := "" },
    { id := "lost", parent := some "nowhere", label := "" }]
  edges := [⟨"", "lead", "desk", none⟩, ⟨"", "desk", "right", none⟩, ⟨"", "right", "lead", none⟩]

/-- The first node of a loop of parents loses its own, and the other one lies in it. -/
theorem layout_separates_tangled :
    Settings.Accepted Settings.customaryDistances ∧ Settings.customaryDistances.Padded ∧
      tangled.ids.Nodup ∧ (kept tangled.items).lookup "left" = none ∧
      Within (kept tangled.items) "left" "right" ∧
      (spotOf (spots Settings.customaryDistances tangled.items tangled.arcs) "desk").Separated
        (spotOf (spots Settings.customaryDistances tangled.items tangled.arcs) "right")
        Settings.customaryDistances := by
  have distinct : tangled.ids.Nodup := by decide
  have desk : Chain (kept tangled.items) "desk" ["desk", "team"] := .step rfl (.top rfl)
  have right : Chain (kept tangled.items) "right" ["right", "left"] := .step rfl (.top rfl)
  refine ⟨Settings.accepted_customaryDistances, Spacing.padded_customaryDistances, distinct, rfl,
    right.mem_iff.mp (by decide), ?_⟩
  exact (layout_separates tangled Settings.accepted_customaryDistances
    Spacing.padded_customaryDistances distinct).2.1 "desk" (by decide) "right" (by decide)
    (right.mem_iff.not.mp (by decide)) (desk.mem_iff.not.mp (by decide))

end FlowDiagram.Graph
