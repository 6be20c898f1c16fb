import FlowDiagram.Layout.Basic
import FlowDiagram.Proofs.Layout.Columns
import FlowDiagram.Proofs.Layout.Layers
import FlowDiagram.Proofs.Layout.Ranks
/-!
# Frames hold arrangements

Measured boxes stand in the plane as `arrange` places them (`placed_frames`), and those
directly inside a frame stand behind its padding (`placed_inner`). A frame finds its boxes by
identifier, so the members of a container have different ones here.

What is known of an arrangement carries over to rectangles that are `Placed`: they keep their
distance, and they touch the frame that they are placed in on each side.
-/

namespace FlowDiagram.Layout

/-! ## Looking up by keys that differ -/

section

variable {α β κ : Type} [DecidableEq κ]

theorem find?_of_mem {key : α → κ} {l : List α} {a : α} (distinct : (l.map key).Nodup)
    (member : a ∈ l) : l.find? (fun b => key b = key a) = some a := by
  induction l with
  | nil => exact absurd member List.not_mem_nil
  | cons first rest ih =>
      obtain ⟨absent, distinct⟩ := List.nodup_cons.mp distinct
      obtain rfl | later := List.mem_cons.mp member
      · exact List.find?_cons_of_pos (decide_eq_true rfl)
      · have other : key first ≠ key a := fun same =>
          absent (List.mem_map.mpr ⟨a, later, same.symm⟩)
        rw [List.find?_cons_of_neg (by simpa using other)]
        exact ih distinct later

theorem lookup_of_mem {l : List (κ × β)} {k : κ} {b : β} (distinct : (l.map (·.1)).Nodup)
    (member : (k, b) ∈ l) : l.lookup k = some b := by
  obtain ⟨before, after, rfl⟩ := List.append_of_mem member
  refine List.lookup_eq_some_iff.mpr ⟨before, after, rfl, ?_⟩
  intro entry early
  rw [List.map_append, List.map_cons] at distinct
  have other := (List.nodup_append.mp distinct).2.2 entry.1 (List.mem_map_of_mem early) k
    List.mem_cons_self
  simpa using other.symm

end

/-! ## Frames that move -/

section

variable {ι : Type} {spots spots' : List (Spot ι ℚ)} {origin : Point ℚ} {extent : Extent ℚ}

theorem Fill.congr (h : Fill spots origin extent) (same : ∀ a, a ∈ spots' ↔ a ∈ spots) :
    Fill spots' origin extent := by
  obtain ⟨left, right, top, bottom⟩ := h
  refine ⟨?_, ?_, ?_, ?_⟩ <;> simpa only [same]

/-- The sides of rectangles that have moved are those from before, moved as far. -/
theorem sides_moved {side : Spot ι ℚ → ℚ} {k : ℚ} (o : Point ℚ)
    (moves : ∀ a : Spot ι ℚ, side (a.moved o) = k + side a) :
    { x | ∃ a ∈ spots.map (Spot.moved · o), side a = x } =
      (k + ·) '' { x | ∃ a ∈ spots, side a = x } := by
  ext x
  simp only [List.mem_map, exists_exists_and_eq_and, Set.mem_ofPred_eq, Set.mem_image, moves]

/-- Rectangles that fill a frame still do after they have moved with it. -/
theorem Fill.moved (h : Fill spots origin extent) (o : Point ℚ) :
    Fill (spots.map (Spot.moved · o)) ⟨o.x + origin.x, o.y + origin.y⟩ extent where
  left := by
    rw [sides_moved o fun a => a.left_moved o]
    exact (monotone_id.const_add o.x).map_isLeast h.left
  right := by
    rw [sides_moved o fun a => a.right_moved o, add_assoc]
    exact (monotone_id.const_add o.x).map_isGreatest h.right
  top := by
    rw [sides_moved o fun a => a.top_moved o]
    exact (monotone_id.const_add o.y).map_isLeast h.top
  bottom := by
    rw [sides_moved o fun a => a.bottom_moved o, add_assoc]
    exact (monotone_id.const_add o.y).map_isGreatest h.bottom

end

/-! ## Members of a container -/

variable {ι : Type} [DecidableEq ι]

/-- The layers of a container, from its members and the arcs between them. -/
def layersOf (members : List ι) (arcs : List (ι × ι)) : Layers ι :=
  let g := (Digraph.ofLists members arcs).acyclic
  Layers.ordered g g.ranks members

theorem flatten_layersOf_perm (members : List ι) (arcs : List (ι × ι)) :
    (layersOf members arcs).flatten.Perm members :=
  Layers.flatten_ordered_perm _ _ members

/-- Rectangles stand in a frame as the members of a container are arranged. -/
def Placed (s : Spacing ℚ) (members : List ι) (arcs : List (ι × ι)) (origin : Point ℚ)
    (extent : Extent ℚ) (spots : List (Spot ι ℚ)) : Prop :=
  ∃ size : ι → Extent ℚ, Grown size ∧
    extent = (arrange s size (layersOf members arcs)).extent ∧
    spots.Perm ((arranged s size (layersOf members arcs)).map (Spot.moved · origin))

namespace Placed

variable {s : Spacing ℚ} {members : List ι} {arcs : List (ι × ι)} {origin : Point ℚ}
variable {extent : Extent ℚ} {spots : List (Spot ι ℚ)}

theorem ids_perm (h : Placed s members arcs origin extent spots) :
    (spots.map Spot.id).Perm members := by
  obtain ⟨size, -, -, same⟩ := h
  have ids := same.map Spot.id
  rw [List.map_map] at ids
  refine ids.trans (.trans (.of_eq ?_) (flatten_layersOf_perm members arcs))
  exact ids_arranged s size _

theorem separated (h : Placed s members arcs origin extent spots) (sound : s.Sound) :
    spots.Pairwise fun a b => a.Separated b s := by
  obtain ⟨size, grown, -, same⟩ := h
  refine (same.pairwise_iff fun apart => apart.symm).mpr ?_
  refine List.pairwise_map.mpr ?_
  exact (arrange_separated sound grown _).imp fun apart => apart.moved origin

theorem fill (h : Placed s members arcs origin extent spots) (sound : s.Sound)
    (filled : members ≠ []) : Fill spots origin extent := by
  obtain ⟨size, grown, rfl, same⟩ := h
  have some : (layersOf members arcs).flatten ≠ [] := fun none =>
    filled (List.nil_perm.mp (none ▸ flatten_layersOf_perm members arcs))
  have fill := (arrange_fill sound grown some).moved origin
  rw [add_zero, add_zero] at fill
  exact fill.congr fun a => same.mem_iff

end Placed

/-- Where arcs rise, each node stands in the layer of its rank. -/
theorem exists_layer_of_rank {β : Type} [LinearOrder β] {f : ι → β} {members : List ι}
    {arcs : List (ι × ι)} (rising : Digraph.Rising f arcs) {v : ι} (member : v ∈ members) :
    ∃ h : (Digraph.ofLists members arcs).rank v < (layersOf members arcs).length,
      v ∈ (layersOf members arcs)[(Digraph.ofLists members arcs).rank v] := by
  have whole : (Digraph.ofLists members arcs).acyclic = Digraph.ofLists members arcs :=
    Digraph.acyclic_eq (f := f) fun a listed => rising a (List.mem_eraseDups.mp listed)
  have rank : Layers.rankOf (Digraph.ofLists members arcs).ranks v =
      (Digraph.ofLists members arcs).rank v := by
    rw [Layers.rankOf, Digraph.lookup_ranks (List.mem_eraseDups.mpr member), Option.getD_some]
  have layer := Layers.mem_ordered (Digraph.ofLists members arcs)
    (Digraph.ofLists members arcs).ranks member
  simp only [layersOf, whole]
  rwa [rank] at layer

/-- Where arcs rise, the rectangle at the beginning of an arc is ahead of the one at its end. -/
theorem Placed.ahead {β : Type} [LinearOrder β] {f : ι → β} {s : Spacing ℚ} {members : List ι}
    {arcs : List (ι × ι)} {origin : Point ℚ} {extent : Extent ℚ} {spots : List (Spot ι ℚ)}
    (h : Placed s members arcs origin extent spots) (sound : s.Sound) (distinct : members.Nodup)
    (rising : Digraph.Rising f arcs) {a b : Spot ι ℚ} (ha : a ∈ spots) (hb : b ∈ spots)
    (arc : (a.id, b.id) ∈ arcs) : a.Ahead b s := by
  have hu := h.ids_perm.mem_iff.mp (List.mem_map_of_mem ha)
  have hv := h.ids_perm.mem_iff.mp (List.mem_map_of_mem hb)
  obtain ⟨size, grown, -, same⟩ := h
  have less : (Digraph.ofLists members arcs).rank a.id <
      (Digraph.ofLists members arcs).rank b.id :=
    Digraph.rank_lt_rank (f := f) (fun a listed => rising a (List.mem_eraseDups.mp listed))
      (List.mem_eraseDups.mpr arc) (List.mem_eraseDups.mpr hu) (List.mem_eraseDups.mpr hv)
  obtain ⟨bound, known⟩ := exists_layer_of_rank rising hu
  obtain ⟨bound', known'⟩ := exists_layer_of_rank rising hv
  obtain ⟨a', placed, rfl⟩ := List.mem_map.mp (same.mem_iff.mp ha)
  obtain ⟨b', placed', rfl⟩ := List.mem_map.mp (same.mem_iff.mp hb)
  have flat := (flatten_layersOf_perm members arcs).nodup_iff.mpr distinct
  have ahead := List.pairwise_iff_getElem.mp (arrange_ahead sound grown flat) _ _ bound bound' less
  exact (ahead a' placed b' placed' known known').moved origin

/-! ## Frames of a container -/

section

variable {ι : Type}

namespace Frame

/-- No frame has a negative size. -/
def Grown (f : Frame ι ℚ) : Prop := 0 ≤ f.extent.width ∧ 0 ≤ f.extent.height

/-- The rectangle of a frame that is given by its centre. -/
def spot (origin centre : Point ℚ) (f : Frame ι ℚ) : Spot ι ℚ :=
  ⟨f.id, ⟨origin.x + centre.x - f.extent.width / 2, origin.y + centre.y - f.extent.height / 2⟩,
    f.extent⟩

theorem spots_eq (origin centre : Point ℚ) (f : Frame ι ℚ) :
    f.spots origin centre =
      f.spot origin centre :: spotsInside (f.spot origin centre).corner f.inner := by
  cases f
  rfl

end Frame

theorem spotsInside_eq (origin : Point ℚ) (fs : List (Point ℚ × Frame ι ℚ)) :
    spotsInside origin fs = fs.flatMap fun placed => placed.2.spots origin placed.1 := by
  induction fs with
  | nil => rfl
  | cons placed rest ih => rw [spotsInside, ih, List.flatMap_cons]

/-- The corner of a frame, behind its padding. -/
def padded (s : Spacing ℚ) (corner : Point ℚ) : Point ℚ :=
  ⟨corner.x + s.paddingLeft, corner.y + s.paddingTop⟩

/-- What a frame leaves inside its padding. -/
def inside (s : Spacing ℚ) (extent : Extent ℚ) : Extent ℚ :=
  ⟨extent.width - s.paddingLeft - s.paddingRight, extent.height - s.paddingTop - s.paddingBottom⟩

theorem inside_enlarged (s : Spacing ℚ) (extent : Extent ℚ) :
    inside s ⟨extent.width + s.paddingLeft + s.paddingRight,
      extent.height + s.paddingTop + s.paddingBottom⟩ = extent := by
  rw [inside]
  congr 1 <;> ring

theorem Frame.spot_inset (s : Spacing ℚ) (corner centre : Point ℚ) (f : Frame ι ℚ) :
    f.spot corner (inset s 1 centre) = f.spot (padded s corner) centre := by
  rw [Frame.spot, Frame.spot, padded, inset, inset]
  congr 2 <;> ring

end

variable {s : Spacing ℚ} {arcs : List ι → List (ι × ι)} {frames : List (Frame ι ℚ)}

theorem content_eq (s : Spacing ℚ) (arcs : List (ι × ι)) (frames : List (Frame ι ℚ)) :
    content s arcs frames =
      arrange s (extentIn frames) (layersOf (frames.map Frame.id) arcs) := rfl

theorem extentIn_eq (distinct : (frames.map Frame.id).Nodup) {f : Frame ι ℚ}
    (member : f ∈ frames) : extentIn frames f.id = f.extent := by
  rw [extentIn, find?_of_mem distinct member]
  rfl

theorem grown_extentIn (grown : ∀ f ∈ frames, f.Grown) : Grown (extentIn frames) := by
  intro v
  rw [extentIn]
  cases found : frames.find? (·.id = v) with
  | none => exact ⟨le_rfl, le_rfl⟩
  | some f => exact grown f (List.mem_of_find?_eq_some found)

theorem centre_eq {a : Arrangement ι ℚ} (distinct : (a.centres.map (·.1)).Nodup) {v : ι}
    {c : Point ℚ} (member : (v, c) ∈ a.centres) : a.centre v = c := by
  have reversed : (a.centres.reverse.map (·.1)).Nodup := by
    rw [List.map_reverse]
    exact List.nodup_reverse.mpr distinct
  rw [Arrangement.centre, lookup_of_mem reversed (List.mem_reverse.mpr member)]
  rfl

/-- Frames at their centres stand as their boxes are arranged. -/
theorem placed_frames (distinct : (frames.map Frame.id).Nodup) (grown : ∀ f ∈ frames, f.Grown)
    (arcs : List (ι × ι)) (origin : Point ℚ) :
    Placed s (frames.map Frame.id) arcs origin (content s arcs frames).extent
      (frames.map fun f => f.spot origin ((content s arcs frames).centre f.id)) := by
  refine ⟨extentIn frames, grown_extentIn grown, by rw [content_eq], ?_⟩
  have keys : ((content s arcs frames).centres.map (·.1)).Perm (frames.map Frame.id) := by
    have ids := ids_arranged s (extentIn frames) (layersOf (frames.map Frame.id) arcs)
    rw [arranged, List.map_map, ← content_eq] at ids
    exact (List.Perm.of_eq ids).trans (flatten_layersOf_perm _ arcs)
  -- Both sides are the list of members, each with the rectangle around its centre.
  let at_centre (v : ι) : Spot ι ℚ :=
    (seat (extentIn frames) (v, (content s arcs frames).centre v)).moved origin
  have left : (frames.map fun f => f.spot origin ((content s arcs frames).centre f.id)) =
      (frames.map Frame.id).map at_centre := by
    rw [List.map_map]
    apply List.map_congr_left
    intro f member
    simp only [at_centre, Function.comp_apply, seat, Spot.moved, extentIn_eq distinct member,
      Frame.spot, add_sub_assoc]
  have right : (arranged s (extentIn frames) (layersOf (frames.map Frame.id) arcs)).map
      (Spot.moved · origin) = ((content s arcs frames).centres.map (·.1)).map at_centre := by
    rw [arranged, List.map_map, List.map_map]
    apply List.map_congr_left
    intro entry member
    obtain ⟨v, c⟩ := entry
    simp only [at_centre, Function.comp_apply, centre_eq (keys.nodup_iff.mpr distinct) member]
  rw [left, right]
  exact (keys.map at_centre).symm

theorem enclose_of_ne_nil (filled : frames ≠ []) (id : ι) :
    enclose s arcs id frames =
      .mk id
        ⟨(content s (arcs (frames.map Frame.id)) frames).extent.width + s.paddingLeft +
            s.paddingRight,
          (content s (arcs (frames.map Frame.id)) frames).extent.height + s.paddingTop +
            s.paddingBottom⟩
        (frames.map fun f => (inset s ((frames.map Frame.id).count f.id)
          ((content s (arcs (frames.map Frame.id)) frames).centre f.id), f)) := by
  rw [enclose, if_neg (by simpa using filled)]

@[simp] theorem id_enclose {α : Type} [Coordinate α] (s : Spacing α)
    (arcs : List ι → List (ι × ι)) (id : ι) (frames : List (Frame ι α)) :
    (enclose s arcs id frames).id = id := by
  rw [enclose]
  split <;> rfl

theorem grown_content (sound : s.Sound) (grown : ∀ f ∈ frames, f.Grown) (arcs : List (ι × ι)) :
    0 ≤ (content s arcs frames).extent.width ∧ 0 ≤ (content s arcs frames).extent.height := by
  rw [content_eq, arrange_extent]
  dsimp only
  exact ⟨le_max_right _ _, tallestHeight_nonneg sound (grown_extentIn grown) _⟩

/-- Around frames of some size stands a frame of some size. -/
theorem grown_enclose (sound : s.Sound) (grown : ∀ f ∈ frames, f.Grown) (id : ι) :
    (enclose s arcs id frames).Grown := by
  obtain rfl | filled := eq_or_ne frames []
  · exact ⟨sound.width.le, sound.height.le⟩
  · obtain ⟨width, height⟩ := grown_content sound grown (arcs (frames.map Frame.id))
    rw [enclose_of_ne_nil filled]
    constructor
    · exact add_nonneg (add_nonneg width sound.left) sound.right
    · exact add_nonneg (add_nonneg height sound.top) sound.bottom

/-- The centre of a box inside the frame around some boxes. -/
def innerCentre (s : Spacing ℚ) (arcs : List ι → List (ι × ι)) (frames : List (Frame ι ℚ))
    (v : ι) : Point ℚ :=
  inset s ((frames.map Frame.id).count v) ((content s (arcs (frames.map Frame.id)) frames).centre v)

theorem inner_enclose (s : Spacing ℚ) (arcs : List ι → List (ι × ι)) (id : ι)
    (frames : List (Frame ι ℚ)) :
    (enclose s arcs id frames).inner = frames.map fun f => (innerCentre s arcs frames f.id, f) := by
  obtain rfl | filled := eq_or_ne frames []
  · rfl
  · rw [enclose_of_ne_nil filled]
    rfl

/-- The boxes inside a frame stand as they are arranged, behind the padding. -/
theorem placed_inner (arcs : List ι → List (ι × ι)) (distinct : (frames.map Frame.id).Nodup)
    (grown : ∀ f ∈ frames, f.Grown) (filled : frames ≠ []) (id : ι) (corner : Point ℚ) :
    Placed s (frames.map Frame.id) (arcs (frames.map Frame.id)) (padded s corner)
      (inside s (enclose s arcs id frames).extent)
      (frames.map fun f => f.spot corner (innerCentre s arcs frames f.id)) := by
  have spots : (frames.map fun f => f.spot corner (innerCentre s arcs frames f.id)) =
      frames.map fun f => f.spot (padded s corner)
        ((content s (arcs (frames.map Frame.id)) frames).centre f.id) := by
    apply List.map_congr_left
    intro f member
    have once : (frames.map Frame.id).count f.id = 1 :=
      List.count_eq_one_of_mem distinct (List.mem_map_of_mem member)
    rw [innerCentre, once, Frame.spot_inset]
  rw [enclose_of_ne_nil filled, Frame.extent, inside_enlarged, spots]
  exact placed_frames distinct grown _ _

end FlowDiagram.Layout
