import FlowDiagram.Proofs.Layout.Forest
import FlowDiagram.Proofs.Layout.Frames
/-!
# Every node has one place

A layout draws each node of its list once (`ids_spots_perm`), and the children of a node
stand in its frame as they are arranged (`placed_children`), as do the outermost nodes in the
plane (`placed_roots`). Nodes have different identifiers here.

The induction is on the depth to which boxes are grown. It is carried by the chain of parents
above a box: the deeper a box, the longer its chain, and no chain is longer than the list of
nodes. So the depth never runs out before the nodes do.
-/

namespace FlowDiagram.Layout

open Parents

variable {ι : Type} [DecidableEq ι]

/-- The nodes that keep a given parent. -/
def children (items : List (Item ι)) (parent : Option ι) : List ι :=
  Box.childrenOf items (kept items) parent

/-- The arcs between the children of a parent. -/
def childArcs (items : List (Item ι)) (edges : List (ι × ι)) (parent : Option ι) : List (ι × ι) :=
  (kept items).liftedArcs edges (children items parent)

/-- The frame of a node whose box is grown to some depth. -/
def frameOf (s : Spacing ℚ) (items : List (Item ι)) (edges : List (ι × ι)) (n : Nat) (id : ι) :
    Frame ι ℚ :=
  measure s ((kept items).liftedArcs edges) (Box.grow items (kept items) n id)

variable {s : Spacing ℚ} {items : List (Item ι)} {edges : List (ι × ι)}
variable {parent : Option ι} {id x p : ι} {heads : List ι} {spots kids : List (Spot ι ℚ)}

theorem mem_children : x ∈ children items parent ↔
    x ∈ items.map (·.id) ∧ (kept items).lookup x = parent :=
  Box.mem_childrenOf

theorem mem_children_of_lookup (distinct : (items.map (·.id)).Nodup)
    (up : (kept items).lookup x = some p) : x ∈ children items (some p) :=
  mem_children.mpr ⟨(mem_of_lookup_kept distinct up).1, up⟩

theorem nodup_children (distinct : (items.map (·.id)).Nodup) (parent : Option ι) :
    (children items parent).Nodup :=
  Box.nodup_childrenOf distinct parent

/-! ## Frames of boxes -/

section

variable {α : Type} [Coordinate α]

theorem measureAll_eq_map (s : Spacing α) (arcs : List ι → List (ι × ι)) (boxes : List (Box ι)) :
    measureAll s arcs boxes = boxes.map (measure s arcs) := by
  induction boxes with
  | nil => rfl
  | cons b rest ih => rw [measureAll, ih, List.map_cons]

/-- The frame of a grown box is put around the frames of its children. -/
theorem measure_grow_succ (s : Spacing α) (arcs : List ι → List (ι × ι)) (items : List (Item ι))
    (parents : Parents ι) (n : Nat) (id : ι) :
    measure s arcs (Box.grow items parents (n + 1) id) =
      enclose s arcs id ((Box.childrenOf items parents (some id)).map fun child =>
        measure s arcs (Box.grow items parents n child)) := by
  rw [Box.grow, measure, measureAll_eq_map, List.map_map]
  rfl

theorem id_measure_grow (s : Spacing α) (arcs : List ι → List (ι × ι)) (items : List (Item ι))
    (parents : Parents ι) (n : Nat) (id : ι) :
    (measure s arcs (Box.grow items parents n id)).id = id := by
  cases n with
  | zero => rfl
  | succ n => rw [measure_grow_succ, id_enclose]

end

theorem frameOf_succ (s : Spacing ℚ) (items : List (Item ι)) (edges : List (ι × ι)) (n : Nat)
    (id : ι) : frameOf s items edges (n + 1) id =
      enclose s ((kept items).liftedArcs edges) id
        ((children items (some id)).map (frameOf s items edges n)) :=
  measure_grow_succ s _ items (kept items) n id

@[simp] theorem id_frameOf (s : Spacing ℚ) (items : List (Item ι)) (edges : List (ι × ι))
    (n : Nat) (id : ι) : (frameOf s items edges n id).id = id :=
  id_measure_grow s _ items (kept items) n id

theorem ids_frames (s : Spacing ℚ) (items : List (Item ι)) (edges : List (ι × ι)) (n : Nat)
    (ids : List ι) : (ids.map (frameOf s items edges n)).map Frame.id = ids := by
  rw [List.map_map]
  exact List.map_id'' (id_frameOf s items edges n) ids

theorem grown_frameOf (sound : s.Sound) (n : Nat) (id : ι) :
    (frameOf s items edges n id).Grown := by
  induction n generalizing id with
  | zero => exact ⟨sound.width.le, sound.height.le⟩
  | succ n ih =>
      rw [frameOf_succ]
      refine grown_enclose sound ?_ id
      rintro _ member
      obtain ⟨child, -, rfl⟩ := List.mem_map.mp member
      exact ih child

theorem grown_frames (sound : s.Sound) (n : Nat) (ids : List ι) :
    ∀ f ∈ ids.map (frameOf s items edges n), f.Grown := by
  intro _ member
  obtain ⟨child, -, rfl⟩ := List.mem_map.mp member
  exact grown_frameOf sound n child

/-- Frames with centres are drawn one after the other. -/
theorem spotsInside_frames (n : Nat) (ids : List ι) (corner : Point ℚ) (centre : ι → Point ℚ) :
    spotsInside corner ((ids.map (frameOf s items edges n)).map fun f => (centre f.id, f)) =
      ids.flatMap fun id => (frameOf s items edges n id).spots corner (centre id) := by
  rw [spotsInside_eq, List.flatMap_map, List.flatMap_map]
  simp only [id_frameOf]

theorem spot_subset_flatMap (n : Nat) (ids : List ι) (corner : Point ℚ) (centre : ι → Point ℚ) :
    (ids.map fun id => (frameOf s items edges n id).spot corner (centre id)) ⊆
      ids.flatMap fun id => (frameOf s items edges n id).spots corner (centre id) := by
  intro _ member
  obtain ⟨id, listed, rfl⟩ := List.mem_map.mp member
  refine List.mem_flatMap.mpr ⟨id, listed, ?_⟩
  rw [Frame.spots_eq]
  exact List.mem_cons_self

theorem ids_spots_frames (n : Nat) (ids : List ι) (corner : Point ℚ) (centre : ι → Point ℚ) :
    (ids.map fun id => (frameOf s items edges n id).spot corner (centre id)).map Spot.id = ids := by
  rw [List.map_map]
  exact List.map_id'' (id_frameOf s items edges n) ids

/-- The children of a node are drawn one after the other, as they are placed in its frame. -/
theorem exists_centres (edges : List (ι × ι)) (distinct : (items.map (·.id)).Nodup)
    (sound : s.Sound) (n : Nat) (id : ι) (corner : Point ℚ) :
    ∃ centre : ι → Point ℚ,
      spotsInside corner (frameOf s items edges (n + 1) id).inner =
        (children items (some id)).flatMap (fun child =>
          (frameOf s items edges n child).spots corner (centre child)) ∧
      (children items (some id) ≠ [] →
        Placed s (children items (some id)) (childArcs items edges (some id)) (padded s corner)
          (inside s (frameOf s items edges (n + 1) id).extent)
          ((children items (some id)).map fun child =>
            (frameOf s items edges n child).spot corner (centre child))) := by
  rw [frameOf_succ]
  refine ⟨innerCentre s ((kept items).liftedArcs edges)
    ((children items (some id)).map (frameOf s items edges n)), ?_, ?_⟩
  · rw [inner_enclose]
    exact spotsInside_frames n _ corner _
  · intro filled
    have ids := ids_frames s items edges n (children items (some id))
    have placed := placed_inner (s := s) ((kept items).liftedArcs edges)
      (ids.symm ▸ nodup_children distinct (some id)) (grown_frames sound n _)
      (by simpa using filled) id corner
    rw [ids, List.map_map] at placed
    simp only [Function.comp_def, id_frameOf] at placed
    exact placed

/-- The outermost nodes are drawn one after the other, as they are placed in the plane. -/
theorem exists_centres_outermost (edges : List (ι × ι)) (distinct : (items.map (·.id)).Nodup)
    (sound : s.Sound) :
    ∃ (centre : ι → Point ℚ) (extent : Extent ℚ),
      Layout.spots s items edges =
        (children items none).flatMap (fun child =>
          (frameOf s items edges items.length child).spots ⟨0, 0⟩ (centre child)) ∧
      Placed s (children items none) (childArcs items edges none) ⟨0, 0⟩ extent
        ((children items none).map fun child =>
          (frameOf s items edges items.length child).spot ⟨0, 0⟩ (centre child)) := by
  have frames : measureAll s ((kept items).liftedArcs edges) (Box.forest items (kept items)) =
      (children items none).map (frameOf s items edges items.length) := by
    rw [measureAll_eq_map, Box.forest, List.map_map]
    rfl
  have ids := ids_frames s items edges items.length (children items none)
  let a := content s (childArcs items edges none)
    ((children items none).map (frameOf s items edges items.length))
  refine ⟨a.centre, a.extent, ?_, ?_⟩
  · rw [Layout.spots, frames, outermost, ids]
    exact spotsInside_frames _ _ _ _
  · have placed := placed_frames (s := s) (ids.symm ▸ nodup_children distinct none)
      (grown_frames sound items.length _) (childArcs items edges none) ⟨0, 0⟩
    rw [ids, List.map_map] at placed
    simp only [Function.comp_def, id_frameOf] at placed
    exact placed

/-! ## Nested rectangles -/

/-- The rectangle of a node has those of its children among some rectangles, placed behind
its padding. -/
def Furnished (s : Spacing ℚ) (items : List (Item ι)) (edges : List (ι × ι))
    (spots : List (Spot ι ℚ)) (a : Spot ι ℚ) : Prop :=
  children items (some a.id) ≠ [] → ∃ kids : List (Spot ι ℚ), kids ⊆ spots ∧
    kids.map Spot.id = children items (some a.id) ∧
    Placed s (children items (some a.id)) (childArcs items edges (some a.id)) (padded s a.corner)
      (inside s a.extent) kids

theorem Furnished.mono {spots' : List (Spot ι ℚ)} {a : Spot ι ℚ}
    (h : Furnished s items edges spots a) (more : spots ⊆ spots') :
    Furnished s items edges spots' a := fun filled => by
  obtain ⟨kids, listed, rest⟩ := h filled
  exact ⟨kids, List.Subset.trans listed more, rest⟩

/-- Rectangles of some nodes and of all that is nested in them, each of them once. -/
structure Nested (s : Spacing ℚ) (items : List (Item ι)) (edges : List (ι × ι))
    (heads : List ι) (spots : List (Spot ι ℚ)) : Prop where
  distinct : (spots.map Spot.id).Nodup
  mem_iff : ∀ x, x ∈ spots.map Spot.id ↔
    x ∈ items.map (·.id) ∧ ∃ head ∈ heads, Within (kept items) head x
  furnished : ∀ a ∈ spots, Furnished s items edges spots a

/-- Nodes side by side are drawn one after the other. -/
theorem Nested.flatMap (listed : heads.Nodup)
    (beside : ∀ a ∈ heads, (kept items).lookup a = parent) {draw : ι → List (Spot ι ℚ)}
    (each : ∀ a ∈ heads, Nested s items edges [a] (draw a)) :
    Nested s items edges heads (heads.flatMap draw) where
  distinct := by
    rw [List.map_flatMap]
    refine List.nodup_flatMap.mpr ⟨fun a member => (each a member).distinct, ?_⟩
    apply listed.imp_of_mem
    intro a b ha hb other x in_a in_b
    obtain ⟨-, _, same, lies⟩ := (each a ha).mem_iff x |>.mp in_a
    obtain ⟨-, _, same', lies'⟩ := (each b hb).mem_iff x |>.mp in_b
    obtain rfl := List.mem_singleton.mp same
    obtain rfl := List.mem_singleton.mp same'
    exact (grounded_kept items).apart other ((beside _ ha).trans (beside _ hb).symm) lies lies'
  mem_iff x := by
    rw [List.map_flatMap, List.mem_flatMap]
    constructor
    · rintro ⟨a, member, here⟩
      obtain ⟨known, _, same, lies⟩ := (each a member).mem_iff x |>.mp here
      obtain rfl := List.mem_singleton.mp same
      exact ⟨known, _, member, lies⟩
    · rintro ⟨known, a, member, lies⟩
      have own := List.mem_singleton_self a
      exact ⟨a, member, (each a member).mem_iff x |>.mpr ⟨known, a, own, lies⟩⟩
  furnished a member := by
    obtain ⟨head, listed, here⟩ := List.mem_flatMap.mp member
    exact ((each head listed).furnished a here).mono fun b there =>
      List.mem_flatMap.mpr ⟨head, listed, there⟩

/-- A node is drawn in front of what is nested in it. -/
theorem Nested.cons (distinct : (items.map (·.id)).Nodup) {a : Spot ι ℚ} (same : a.id = id)
    (known : id ∈ items.map (·.id))
    (inner : Nested s items edges (children items (some id)) spots)
    (furnished : Furnished s items edges spots a) : Nested s items edges [id] (a :: spots) where
  distinct := by
    subst same
    refine List.nodup_cons.mpr ⟨?_, inner.distinct⟩
    intro again
    obtain ⟨-, child, member, lies⟩ := (inner.mem_iff a.id).mp again
    exact (grounded_kept items).not_within_parent (mem_children.mp member).2 lies
  mem_iff x := by
    subst same
    rw [List.map_cons, List.mem_cons, inner.mem_iff]
    constructor
    · rintro (rfl | ⟨known, child, member, lies⟩)
      · exact ⟨known, a.id, List.mem_singleton_self _, .self⟩
      · exact ⟨known, a.id, List.mem_singleton_self _,
          (Within.of_lookup (mem_children.mp member).2).trans lies⟩
    · rintro ⟨known, _, same, lies⟩
      obtain rfl := List.mem_singleton.mp same
      obtain rfl | ⟨child, up, lies⟩ := lies.eq_or_child
      · exact .inl rfl
      · exact .inr ⟨known, child, mem_children_of_lookup distinct up, lies⟩
  furnished b member := by
    obtain rfl | later := List.mem_cons.mp member
    · exact furnished.mono (List.subset_cons_self _ _)
    · exact (inner.furnished b later).mono (List.subset_cons_self _ _)

/-- A frame is deep enough for what is nested in its node. -/
theorem nested_frameOf (distinct : (items.map (·.id)).Nodup) (sound : s.Sound) (n : Nat)
    {chain : List ι} (own : Chain (kept items) id chain) (known : id ∈ items.map (·.id))
    (room : items.length < chain.length + n) (origin centre : Point ℚ) :
    Nested s items edges [id] ((frameOf s items edges n id).spots origin centre) := by
  induction n generalizing id chain origin centre with
  | zero => exact absurd (length_chain_kept_le distinct own known) (Nat.not_le.mpr room)
  | succ n ih =>
      rw [Frame.spots_eq]
      have same : ((frameOf s items edges (n + 1) id).spot origin centre).id = id :=
        id_frameOf s items edges (n + 1) id
      obtain ⟨centres, drawn, placed⟩ := exists_centres edges distinct sound n id
        ((frameOf s items edges (n + 1) id).spot origin centre).corner
      rw [drawn]
      refine Nested.cons distinct same known ?_ ?_
      · apply Nested.flatMap (nodup_children distinct _)
          fun child member => (mem_children.mp member).2
        intro child member
        obtain ⟨known, up⟩ := mem_children.mp member
        refine ih (.step up own) known ?_ _ (centres child)
        rw [List.length_cons]
        omega
      · intro filled
        rw [same] at filled ⊢
        exact ⟨_, spot_subset_flatMap n _ _ centres, ids_spots_frames n _ _ centres,
          placed filled⟩

/-! ## The whole layout -/

section

variable (edges) (distinct : (items.map (·.id)).Nodup) (sound : s.Sound)
include distinct sound

theorem nested_spots :
    Nested s items edges (children items none) (Layout.spots s items edges) := by
  obtain ⟨centres, extent, drawn, -⟩ := exists_centres_outermost edges distinct sound
  rw [drawn]
  apply Nested.flatMap (nodup_children distinct none)
    fun child member => (mem_children.mp member).2
  intro child member
  obtain ⟨known, free⟩ := mem_children.mp member
  refine nested_frameOf distinct sound _ (.top free) known ?_ _ _
  rw [List.length_singleton, Nat.add_comm]
  exact Nat.lt_succ_self _

/-- A layout draws each node, and it draws it once. -/
theorem ids_spots_perm :
    ((Layout.spots s items edges).map Spot.id).Perm (items.map (·.id)) := by
  have nested := nested_spots edges distinct sound
  apply (List.perm_ext_iff_of_nodup nested.distinct distinct).mpr
  intro x
  refine (nested.mem_iff x).trans ⟨And.left, fun known => ⟨known, ?_⟩⟩
  obtain ⟨root, free, lies⟩ := (grounded_kept items).exists_root x
  exact ⟨root, mem_children.mpr ⟨mem_of_within_kept distinct lies known, free⟩, lies⟩

/-- A rectangle of a layout is found by its identifier. -/
theorem spotOf_eq {a : Spot ι ℚ} (member : a ∈ Layout.spots s items edges) :
    spotOf (Layout.spots s items edges) a.id = a := by
  rw [spotOf, find?_of_mem (nested_spots edges distinct sound).distinct member]
  rfl

theorem spotOf_mem (known : x ∈ items.map (·.id)) :
    spotOf (Layout.spots s items edges) x ∈ Layout.spots s items edges ∧
      (spotOf (Layout.spots s items edges) x).id = x := by
  have drawn := (ids_spots_perm edges distinct sound).mem_iff.mpr known
  obtain ⟨a, member, rfl⟩ := List.mem_map.mp drawn
  rw [spotOf_eq edges distinct sound member]
  exact ⟨member, rfl⟩

/-- Some rectangles of a layout are those that their identifiers find. -/
theorem map_spotOf (drawn : kids ⊆ Layout.spots s items edges) (ids : kids.map Spot.id = heads) :
    heads.map (spotOf (Layout.spots s items edges)) = kids := by
  rw [← ids, List.map_map]
  refine (List.map_congr_left fun a member => ?_).trans (List.map_id kids)
  exact spotOf_eq edges distinct sound (drawn member)

/-- The children of a node stand in its frame as they are arranged, behind its padding. -/
theorem placed_children (filled : children items (some p) ≠ []) :
    Placed s (children items (some p)) (childArcs items edges (some p))
      (padded s (spotOf (Layout.spots s items edges) p).corner)
      (inside s (spotOf (Layout.spots s items edges) p).extent)
      ((children items (some p)).map (spotOf (Layout.spots s items edges))) := by
  obtain ⟨child, member⟩ := List.exists_mem_of_ne_nil _ filled
  have known := (mem_of_lookup_kept distinct (mem_children.mp member).2).2
  obtain ⟨drawn, same⟩ := spotOf_mem edges distinct sound known
  have furnished := (nested_spots edges distinct sound).furnished _ drawn
  rw [Furnished, same] at furnished
  obtain ⟨kids, listed, ids, placed⟩ := furnished filled
  rw [map_spotOf edges distinct sound listed ids]
  exact placed

/-- The outermost nodes stand in the plane as they are arranged. -/
theorem placed_roots :
    ∃ extent : Extent ℚ, Placed s (children items none) (childArcs items edges none) ⟨0, 0⟩ extent
      ((children items none).map (spotOf (Layout.spots s items edges))) := by
  obtain ⟨centres, extent, drawn, placed⟩ :=
    exists_centres_outermost edges distinct sound
  refine ⟨extent, ?_⟩
  rw [map_spotOf edges distinct sound ?_ ?_]
  · exact placed
  · rw [drawn]
    exact spot_subset_flatMap _ _ _ _
  · exact ids_spots_frames _ _ _ _

end

/-! ## Reported placements -/

/-- The placement that a layout reports for a node. -/
def reported (s : Spacing ℚ) (items : List (Item ι)) (edges : List (ι × ι)) (id : ι) :
    Placement ℚ :=
  (((items.map (·.id)).zip (placements s items edges)).lookup id).getD ⟨.origin, .zero⟩

theorem reported_eq (distinct : (items.map (·.id)).Nodup) (known : x ∈ items.map (·.id)) :
    reported s items edges x = placement (kept items) (Layout.spots s items edges) x := by
  obtain ⟨item, member, rfl⟩ := List.mem_map.mp known
  have zipped : (items.map (·.id)).zip (placements s items edges) = items.map fun item =>
      (item.id, placement (kept items) (Layout.spots s items edges) item.id) := List.zip_map'
  have keys : ((items.map fun item =>
      (item.id, placement (kept items) (Layout.spots s items edges) item.id)).map (·.1)).Nodup := by
    rw [List.map_map]
    exact distinct
  have entry : (item.id, placement (kept items) (Layout.spots s items edges) item.id) ∈
      items.map fun item =>
        (item.id, placement (kept items) (Layout.spots s items edges) item.id) :=
    List.mem_map.mpr ⟨item, member, rfl⟩
  rw [reported, zipped, lookup_of_mem keys entry]
  rfl

theorem extent_reported (distinct : (items.map (·.id)).Nodup) (known : x ∈ items.map (·.id)) :
    (reported s items edges x).extent = (spotOf (Layout.spots s items edges) x).extent := by
  rw [reported_eq distinct known, placement]
  cases (kept items).lookup x <;> rfl

/-- A place is reported as it is seen from the parent. -/
theorem reported_of_lookup (distinct : (items.map (·.id)).Nodup)
    (up : (kept items).lookup x = some p) : reported s items edges x =
      ⟨(spotOf (Layout.spots s items edges) x).corner.from
          (spotOf (Layout.spots s items edges) p).corner,
        (spotOf (Layout.spots s items edges) x).extent⟩ := by
  rw [reported_eq distinct (mem_of_lookup_kept distinct up).1, placement, up]

/-- Outermost nodes are reported where they are. -/
theorem reported_of_root (distinct : (items.map (·.id)).Nodup) (known : x ∈ items.map (·.id))
    (free : (kept items).lookup x = none) : reported s items edges x =
      ⟨(spotOf (Layout.spots s items edges) x).corner,
        (spotOf (Layout.spots s items edges) x).extent⟩ := by
  rw [reported_eq distinct known, placement, free]

end FlowDiagram.Layout
