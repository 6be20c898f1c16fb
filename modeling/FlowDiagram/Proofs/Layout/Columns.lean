import FlowDiagram.Proofs.Layout.Rectangles
import FlowDiagram.Proofs.Settings.Accepted
import Mathlib.Data.List.Nodup
import Mathlib.Tactic.Ring
/-!
# Columns of boxes

Boxes of one layer are stacked around a vertical line, and the stacks stand side by side.
`arrange_fill` says that together they touch the extent of the arrangement on each side, and
`arrange_separated` that any two of them keep their distance. Boxes of an earlier layer are
ahead of those of a later one (`arrange_ahead`).

Each fact is proved for one stack first and then for the columns from some left edge on, by
induction on the layers. A layer without boxes takes no room.
-/

namespace FlowDiagram.Layout

variable {ι : Type}

/-- The rectangle of a box with a centre. -/
def seat (extent : ι → Extent ℚ) (placed : ι × Point ℚ) : Spot ι ℚ :=
  ⟨placed.1, ⟨placed.2.x - (extent placed.1).width / 2, placed.2.y - (extent placed.1).height / 2⟩,
    extent placed.1⟩

/-- No box has a negative size. -/
def Grown (extent : ι → Extent ℚ) : Prop := ∀ v, 0 ≤ (extent v).width ∧ 0 ≤ (extent v).height

variable {extent : ι → Extent ℚ} {separation middle top : ℚ} {v : ι} {vs : List ι}
variable {a : Spot ι ℚ}

/-! ## A stack -/

@[simp] theorem stackHeight_nil (separation : ℚ) : stackHeight separation [] = 0 := by
  simp [stackHeight, total]

theorem stackHeight_cons (separation h : ℚ) {hs : List ℚ} (more : hs ≠ []) :
    stackHeight separation (h :: hs) = h + (separation + stackHeight separation hs) := by
  obtain ⟨n, length⟩ := Nat.exists_eq_add_of_lt (List.length_pos_iff.mpr more)
  rw [stackHeight, stackHeight, total_eq_sum, total_eq_sum, List.sum_cons, List.length_cons, length,
    ofNat_rat, ofNat_rat]
  simp only [Nat.zero_add, Nat.add_sub_cancel, Nat.cast_add, Nat.cast_one]
  ring

theorem stackHeight_singleton (separation h : ℚ) : stackHeight separation [h] = h := by
  simp [stackHeight, total]

/-- The height of the stack of a layer. -/
def layerHeight (separation : ℚ) (extent : ι → Extent ℚ) (layer : List ι) : ℚ :=
  stackHeight separation (layer.map fun v => (extent v).height)

theorem layerHeight_cons (separation : ℚ) (extent : ι → Extent ℚ) (v : ι) (more : vs ≠ []) :
    layerHeight separation extent (v :: vs) =
      (extent v).height + (separation + layerHeight separation extent vs) :=
  stackHeight_cons _ _ (by simpa using more)

theorem layerHeight_nonneg (grown : Grown extent) (apart : 0 ≤ separation) (layer : List ι) :
    0 ≤ layerHeight separation extent layer := by
  induction layer with
  | nil => exact (stackHeight_nil separation).ge
  | cons v vs ih =>
      obtain rfl | more := eq_or_ne vs []
      · exact (grown v).2.trans (stackHeight_singleton separation _).ge
      · rw [layerHeight_cons _ _ _ more]
        linarith [(grown v).2]

/-- The rectangles of a stack. -/
def stacked (separation middle : ℚ) (extent : ι → Extent ℚ) (top : ℚ) (layer : List ι) :
    List (Spot ι ℚ) :=
  (stack separation middle extent top layer).map (seat extent)

theorem stacked_cons (separation middle : ℚ) (extent : ι → Extent ℚ) (top : ℚ) (v : ι)
    (vs : List ι) :
    stacked separation middle extent top (v :: vs) =
      ⟨v, ⟨middle - (extent v).width / 2, top⟩, extent v⟩ ::
        stacked separation middle extent (top + ((extent v).height + separation)) vs := by
  rw [stacked, stack, List.map_cons, half_rat, seat]
  simp only [add_sub_cancel_right]
  rfl

theorem ids_stacked (separation middle : ℚ) (extent : ι → Extent ℚ) (top : ℚ) (layer : List ι) :
    (stacked separation middle extent top layer).map Spot.id = layer := by
  induction layer generalizing top with
  | nil => rfl
  | cons v vs ih => rw [stacked_cons, List.map_cons, ih]

/-- The boxes of a stack stand around its line. -/
theorem stacked_sides (member : a ∈ stacked separation middle extent top vs) :
    a.extent = extent a.id ∧ a.left = middle - (extent a.id).width / 2 ∧
      a.right = middle + (extent a.id).width / 2 := by
  induction vs generalizing top with
  | nil => exact absurd member List.not_mem_nil
  | cons v vs ih =>
      rw [stacked_cons] at member
      obtain rfl | later := List.mem_cons.mp member
      · refine ⟨rfl, rfl, ?_⟩
        rw [Spot.right]
        ring
      · exact ih later

/-- A stack begins at its top and ends its height below it. -/
theorem stacked_bounds (grown : Grown extent) (apart : 0 ≤ separation)
    (member : a ∈ stacked separation middle extent top vs) :
    top ≤ a.top ∧ a.bottom ≤ top + layerHeight separation extent vs := by
  induction vs generalizing top with
  | nil => exact absurd member List.not_mem_nil
  | cons v vs ih =>
      have height := (grown v).2
      rw [stacked_cons] at member
      obtain rfl | later := List.mem_cons.mp member
      · refine ⟨le_rfl, ?_⟩
        change top + (extent v).height ≤ _
        obtain rfl | more := eq_or_ne vs []
        · exact (congrArg (top + ·) (stackHeight_singleton separation _)).ge
        · rw [layerHeight_cons _ _ _ more]
          linarith [layerHeight_nonneg grown apart vs]
      · have more : vs ≠ [] := fun none => by
          rw [none] at later
          exact absurd later List.not_mem_nil
        obtain ⟨above, below⟩ := ih later
        rw [layerHeight_cons _ _ _ more]
        constructor <;> linarith

/-- Its first box touches the top of a stack, and its last one the bottom. -/
theorem stacked_attains (separation middle top : ℚ) (extent : ι → Extent ℚ) (more : vs ≠ []) :
    (∃ a ∈ stacked separation middle extent top vs, a.top = top) ∧
      ∃ a ∈ stacked separation middle extent top vs,
        a.bottom = top + layerHeight separation extent vs := by
  induction vs generalizing top with
  | nil => exact absurd rfl more
  | cons v vs ih =>
      rw [stacked_cons]
      refine ⟨⟨_, List.mem_cons_self, rfl⟩, ?_⟩
      obtain rfl | further := eq_or_ne vs []
      · refine ⟨_, List.mem_cons_self, ?_⟩
        exact congrArg (top + ·) (stackHeight_singleton separation _).symm
      · obtain ⟨-, a, member, ends⟩ := ih (top + ((extent v).height + separation)) further
        refine ⟨a, List.mem_cons_of_mem _ member, ?_⟩
        rw [ends, layerHeight_cons _ _ _ further]
        ring

/-- The boxes of a stack stand below each other in order. -/
theorem stacked_above {s : Spacing ℚ} (sound : s.Sound) (grown : Grown extent)
    (middle top : ℚ) (layer : List ι) :
    (stacked s.nodeSeparation middle extent top layer).Pairwise fun a b => a.Above b s := by
  induction layer generalizing top with
  | nil => exact .nil
  | cons v vs ih =>
      rw [stacked_cons]
      refine .cons (fun b member => ?_) (ih _)
      have below := (stacked_bounds grown sound.nodes member).1
      rw [Spot.Above, Spot.bottom]
      linarith

/-! ## Columns side by side -/

variable {s : Spacing ℚ} {tallest left : ℚ} {layer : List ι} {layers : List (List ι)}

/-- The width of the column of a layer. -/
def layerWidth (extent : ι → Extent ℚ) (layer : List ι) : ℚ :=
  largest (layer.map fun v => (extent v).width)

/-- The rectangles of the column of a layer. -/
def column (s : Spacing ℚ) (extent : ι → Extent ℚ) (tallest left : ℚ) (layer : List ι) :
    List (Spot ι ℚ) :=
  stacked s.nodeSeparation (left + layerWidth extent layer / 2) extent
    ((tallest - layerHeight s.nodeSeparation extent layer) / 2) layer

/-- The rectangles of all columns from a left edge on. -/
def columnSpots (s : Spacing ℚ) (extent : ι → Extent ℚ) (tallest left : ℚ)
    (layers : List (List ι)) : List (Spot ι ℚ) :=
  (columns s extent tallest left layers).2.map (seat extent)

/-- The edge behind the last column and its distance. -/
def columnsEnd (s : Spacing ℚ) (extent : ι → Extent ℚ) (tallest left : ℚ)
    (layers : List (List ι)) : ℚ :=
  (columns s extent tallest left layers).1

/-- The left edge of the column behind that of a layer. -/
def behind (s : Spacing ℚ) (extent : ι → Extent ℚ) (left : ℚ) (layer : List ι) : ℚ :=
  left + (layerWidth extent layer + s.rankSeparation)

theorem columnsEnd_cons (filled : layer ≠ []) :
    columnsEnd s extent tallest left (layer :: layers) =
      columnsEnd s extent tallest (behind s extent left layer) layers := by
  rw [columnsEnd, columns, if_neg (by simpa using filled)]
  rfl

theorem columnSpots_cons (filled : layer ≠ []) :
    columnSpots s extent tallest left (layer :: layers) =
      column s extent tallest left layer ++
        columnSpots s extent tallest (behind s extent left layer) layers := by
  rw [columnSpots, columns, if_neg (by simpa using filled)]
  exact List.map_append

theorem columns_of_flatten_eq_nil (s : Spacing ℚ) (extent : ι → Extent ℚ) (tallest left : ℚ)
    (empty : layers.flatten = []) : columns s extent tallest left layers = (left, []) := by
  induction layers with
  | nil => rfl
  | cons layer rest ih =>
      obtain ⟨rfl, none⟩ := List.append_eq_nil_iff.mp (List.flatten_cons ▸ empty)
      exact ih none

theorem ids_columnSpots (s : Spacing ℚ) (extent : ι → Extent ℚ) (tallest left : ℚ)
    (layers : List (List ι)) :
    (columnSpots s extent tallest left layers).map Spot.id = layers.flatten := by
  induction layers generalizing left with
  | nil => rfl
  | cons layer rest ih =>
      obtain rfl | filled := eq_or_ne layer []
      · exact ih left
      · rw [columnSpots_cons filled, List.map_append, ih, column, ids_stacked, List.flatten_cons]

theorem extent_of_mem_columnSpots (member : a ∈ columnSpots s extent tallest left layers) :
    a.extent = extent a.id := by
  obtain ⟨placed, -, rfl⟩ := List.mem_map.mp member
  rfl

theorem width_le_layerWidth (member : v ∈ layer) : (extent v).width ≤ layerWidth extent layer :=
  le_largest (List.mem_map_of_mem member)

theorem exists_width_eq_layerWidth (extent : ι → Extent ℚ) (filled : layer ≠ []) :
    ∃ v ∈ layer, (extent v).width = layerWidth extent layer :=
  List.mem_map.mp (largest_mem (by simpa using filled))

theorem layerWidth_nonneg (grown : Grown extent) (filled : layer ≠ []) :
    0 ≤ layerWidth extent layer := by
  obtain ⟨v, -, same⟩ := exists_width_eq_layerWidth extent filled
  exact same ▸ (grown v).1

theorem id_mem_of_mem_column (member : a ∈ column s extent tallest left layer) : a.id ∈ layer := by
  have listed := List.mem_map_of_mem (f := Spot.id) member
  rwa [column, ids_stacked] at listed

theorem column_bounds (member : a ∈ column s extent tallest left layer) :
    left ≤ a.left ∧ a.right ≤ left + layerWidth extent layer := by
  have fits : (extent a.id).width ≤ layerWidth extent layer :=
    width_le_layerWidth (id_mem_of_mem_column member)
  obtain ⟨-, left', right'⟩ := stacked_sides member
  constructor <;> linarith

/-- The widest box of a column touches both of its edges. -/
theorem column_attains (s : Spacing ℚ) (extent : ι → Extent ℚ) (tallest left : ℚ)
    (filled : layer ≠ []) :
    ∃ a ∈ column s extent tallest left layer,
      a.left = left ∧ a.right = left + layerWidth extent layer := by
  obtain ⟨v, member, widest⟩ := exists_width_eq_layerWidth extent filled
  have listed : v ∈ (column s extent tallest left layer).map Spot.id := by
    rw [column, ids_stacked]
    exact member
  obtain ⟨a, placed, rfl⟩ := List.mem_map.mp listed
  obtain ⟨-, left', right'⟩ := stacked_sides placed
  refine ⟨a, placed, ?_, ?_⟩ <;> linarith

/-- Boxes of columns lie behind the left edge and before the end. -/
theorem columns_bounds (sound : s.Sound) (grown : Grown extent) (tallest left : ℚ)
    (layers : List (List ι)) :
    left ≤ columnsEnd s extent tallest left layers ∧
      ∀ a ∈ columnSpots s extent tallest left layers,
        left ≤ a.left ∧ a.right + s.rankSeparation ≤ columnsEnd s extent tallest left layers := by
  induction layers generalizing left with
  | nil => exact ⟨le_rfl, fun a member => absurd member List.not_mem_nil⟩
  | cons layer rest ih =>
      obtain rfl | filled := eq_or_ne layer []
      · exact ih left
      have onward : left ≤ behind s extent left layer := by
        rw [behind]
        linarith [layerWidth_nonneg grown filled, sound.ranks]
      obtain ⟨further, later⟩ := ih (behind s extent left layer)
      rw [columnsEnd_cons filled, columnSpots_cons filled]
      refine ⟨onward.trans further, ?_⟩
      intro a member
      obtain here | there := List.mem_append.mp member
      · obtain ⟨left', right'⟩ := column_bounds here
        refine ⟨left', le_trans ?_ further⟩
        rw [behind]
        linarith
      · obtain ⟨left', right'⟩ := later a there
        exact ⟨onward.trans left', right'⟩

/-- The first column touches the left edge, and the last one the end. -/
theorem columns_attains (s : Spacing ℚ) (extent : ι → Extent ℚ) (tallest left : ℚ)
    (layers : List (List ι)) (filled : layers.flatten ≠ []) :
    (∃ a ∈ columnSpots s extent tallest left layers, a.left = left) ∧
      ∃ a ∈ columnSpots s extent tallest left layers,
        a.right + s.rankSeparation = columnsEnd s extent tallest left layers := by
  induction layers generalizing left with
  | nil => exact absurd rfl filled
  | cons layer rest ih =>
      obtain rfl | some := eq_or_ne layer []
      · exact ih left filled
      obtain ⟨a, here, first, last⟩ := column_attains s extent tallest left some
      rw [columnsEnd_cons some, columnSpots_cons some]
      refine ⟨⟨a, List.mem_append_left _ here, first⟩, ?_⟩
      by_cases empty : rest.flatten = []
      · refine ⟨a, List.mem_append_left _ here, ?_⟩
        rw [columnsEnd, columns_of_flatten_eq_nil _ _ _ _ empty, last, behind, add_assoc]
      · obtain ⟨-, b, there, ends⟩ := ih (behind s extent left layer) empty
        exact ⟨b, List.mem_append_right _ there, ends⟩

/-- A box of an earlier column is ahead of those of later ones. -/
theorem column_ahead (sound : s.Sound) (grown : Grown extent) {a b : Spot ι ℚ}
    (here : a ∈ column s extent tallest left layer)
    (there : b ∈ columnSpots s extent tallest (behind s extent left layer) layers) :
    a.Ahead b s := by
  have right := (column_bounds here).2
  have left' := ((columns_bounds sound grown _ _ _).2 b there).1
  rw [behind] at left'
  rw [Spot.Ahead]
  linarith

theorem columns_separated (sound : s.Sound) (grown : Grown extent) (tallest left : ℚ)
    (layers : List (List ι)) :
    (columnSpots s extent tallest left layers).Pairwise fun a b => a.Separated b s := by
  induction layers generalizing left with
  | nil => exact .nil
  | cons layer rest ih =>
      obtain rfl | filled := eq_or_ne layer []
      · exact ih left
      rw [columnSpots_cons filled]
      refine List.pairwise_append.mpr ⟨?_, ih _, ?_⟩
      · exact (stacked_above sound grown _ _ layer).imp fun above => .inr (.inl above)
      · exact fun a here b there => .inl (.inl (column_ahead sound grown here there))

/-- Boxes of an earlier layer are ahead of those of a later one. -/
theorem columns_ahead (sound : s.Sound) (grown : Grown extent) (tallest left : ℚ)
    (layers : List (List ι)) (distinct : layers.flatten.Nodup) :
    layers.Pairwise fun before after =>
      ∀ a ∈ columnSpots s extent tallest left layers,
        ∀ b ∈ columnSpots s extent tallest left layers,
          a.id ∈ before → b.id ∈ after → a.Ahead b s := by
  induction layers generalizing left with
  | nil => exact .nil
  | cons layer rest ih =>
      obtain rfl | filled := eq_or_ne layer []
      · refine .cons (fun after _ a _ b _ nowhere => absurd nowhere List.not_mem_nil) ?_
        exact ih left distinct
      rw [List.flatten_cons] at distinct
      obtain ⟨-, distinct, apart⟩ := List.nodup_append'.mp distinct
      have in_rest : ∀ a ∈ columnSpots s extent tallest (behind s extent left layer) rest,
          a.id ∈ rest.flatten := fun a there =>
        ids_columnSpots s extent tallest _ rest ▸ List.mem_map_of_mem there
      rw [columnSpots_cons filled]
      -- A box stands in the column of the layer that its identifier belongs to.
      have first : ∀ a ∈ column s extent tallest left layer ++
          columnSpots s extent tallest (behind s extent left layer) rest,
          a.id ∈ layer → a ∈ column s extent tallest left layer := by
        intro a member known
        apply (List.mem_append.mp member).resolve_right
        intro there
        exact apart known (in_rest a there)
      have later : ∀ a ∈ column s extent tallest left layer ++
          columnSpots s extent tallest (behind s extent left layer) rest,
          a.id ∈ rest.flatten →
            a ∈ columnSpots s extent tallest (behind s extent left layer) rest := by
        intro a member known
        apply (List.mem_append.mp member).resolve_left
        intro here
        exact apart (id_mem_of_mem_column here) known
      refine .cons ?_ ((ih (behind s extent left layer) distinct).imp_of_mem ?_)
      · intro after listed a member b member' known known'
        have known' := List.mem_flatten.mpr ⟨after, listed, known'⟩
        exact column_ahead sound grown (first a member known) (later b member' known')
      · intro before after listed listed' ahead a member b member' known known'
        have a_later := later a member (List.mem_flatten.mpr ⟨before, listed, known⟩)
        have b_later := later b member' (List.mem_flatten.mpr ⟨after, listed', known'⟩)
        exact ahead a a_later b b_later known known'

/-- The boxes of each layer are centred on the tallest column. -/
theorem exists_layer_of_mem_columnSpots (sound : s.Sound) (grown : Grown extent)
    (member : a ∈ columnSpots s extent tallest left layers) :
    ∃ layer ∈ layers,
      (tallest - layerHeight s.nodeSeparation extent layer) / 2 ≤ a.top ∧
      a.bottom ≤ (tallest + layerHeight s.nodeSeparation extent layer) / 2 := by
  induction layers generalizing left with
  | nil => exact absurd member List.not_mem_nil
  | cons layer rest ih =>
      obtain rfl | filled := eq_or_ne layer []
      · obtain ⟨other, listed, bounds⟩ := ih member
        exact ⟨other, List.mem_cons_of_mem _ listed, bounds⟩
      rw [columnSpots_cons filled] at member
      obtain here | there := List.mem_append.mp member
      · obtain ⟨above, below⟩ := stacked_bounds grown sound.nodes here
        exact ⟨layer, List.mem_cons_self, above, by linarith⟩
      · obtain ⟨other, listed, bounds⟩ := ih there
        exact ⟨other, List.mem_cons_of_mem _ listed, bounds⟩

theorem columns_attains_layer (s : Spacing ℚ) (extent : ι → Extent ℚ) (tallest left : ℚ)
    (layers : List (List ι)) (listed : layer ∈ layers) (filled : layer ≠ []) :
    (∃ a ∈ columnSpots s extent tallest left layers,
        a.top = (tallest - layerHeight s.nodeSeparation extent layer) / 2) ∧
      ∃ a ∈ columnSpots s extent tallest left layers,
        a.bottom = (tallest + layerHeight s.nodeSeparation extent layer) / 2 := by
  induction layers generalizing left with
  | nil => exact absurd listed List.not_mem_nil
  | cons first rest ih =>
      obtain rfl | other := eq_or_ne first []
      · obtain rfl | later := List.mem_cons.mp listed
        · exact absurd rfl filled
        · exact ih left later
      rw [columnSpots_cons other]
      obtain rfl | later := List.mem_cons.mp listed
      · obtain ⟨⟨a, here, begins⟩, b, here', ends⟩ := stacked_attains s.nodeSeparation
          (left + layerWidth extent layer / 2)
          ((tallest - layerHeight s.nodeSeparation extent layer) / 2) extent filled
        refine ⟨⟨a, List.mem_append_left _ here, begins⟩, b, List.mem_append_left _ here', ?_⟩
        linarith
      · obtain ⟨⟨a, there, begins⟩, b, there', ends⟩ := ih (behind s extent left first) later
        exact ⟨⟨a, List.mem_append_right _ there, begins⟩, b, List.mem_append_right _ there', ends⟩

/-! ## Arrangements -/

/-- The rectangles of an arrangement of layers. -/
def arranged (s : Spacing ℚ) (extent : ι → Extent ℚ) (layers : List (List ι)) :
    List (Spot ι ℚ) :=
  (arrange s extent layers).centres.map (seat extent)

/-- The height of the tallest layer. -/
def tallestHeight (s : Spacing ℚ) (extent : ι → Extent ℚ) (layers : List (List ι)) : ℚ :=
  largest (layers.map (layerHeight s.nodeSeparation extent))

theorem arranged_eq (s : Spacing ℚ) (extent : ι → Extent ℚ) (layers : List (List ι)) :
    arranged s extent layers = columnSpots s extent (tallestHeight s extent layers) 0 layers := rfl

theorem ids_arranged (s : Spacing ℚ) (extent : ι → Extent ℚ) (layers : List (List ι)) :
    (arranged s extent layers).map Spot.id = layers.flatten :=
  ids_columnSpots s extent _ 0 layers

theorem arrange_separated (sound : s.Sound) (grown : Grown extent) (layers : List (List ι)) :
    (arranged s extent layers).Pairwise fun a b => a.Separated b s :=
  columns_separated sound grown _ 0 layers

theorem arrange_ahead (sound : s.Sound) (grown : Grown extent) (distinct : layers.flatten.Nodup) :
    layers.Pairwise fun before after =>
      ∀ a ∈ arranged s extent layers, ∀ b ∈ arranged s extent layers,
        a.id ∈ before → b.id ∈ after → a.Ahead b s :=
  columns_ahead sound grown _ 0 layers distinct

theorem arrange_extent (s : Spacing ℚ) (extent : ι → Extent ℚ) (layers : List (List ι)) :
    (arrange s extent layers).extent =
      ⟨max (columnsEnd s extent (tallestHeight s extent layers) 0 layers - s.rankSeparation) 0,
        tallestHeight s extent layers⟩ := by
  rw [arrange]
  simp only [larger_rat]
  rfl

theorem tallestHeight_nonneg (sound : s.Sound) (grown : Grown extent) (layers : List (List ι)) :
    0 ≤ tallestHeight s extent layers := by
  cases layers with
  | nil => exact le_rfl
  | cons layer rest =>
      exact (layerHeight_nonneg grown sound.nodes layer).trans
        (le_largest (List.mem_map_of_mem List.mem_cons_self))

/-- A layer with boxes is as high as the tallest one. -/
theorem exists_layer_tallest (sound : s.Sound) (grown : Grown extent)
    (filled : layers.flatten ≠ []) :
    ∃ layer ∈ layers, layer ≠ [] ∧
      layerHeight s.nodeSeparation extent layer = tallestHeight s extent layers := by
  obtain ⟨v, member⟩ := List.exists_mem_of_ne_nil _ filled
  obtain ⟨other, listed', known⟩ := List.mem_flatten.mp member
  have nonempty : layers.map (layerHeight s.nodeSeparation extent) ≠ [] :=
    List.ne_nil_of_mem (List.mem_map_of_mem listed')
  obtain ⟨layer, listed, tallest⟩ := List.mem_map.mp (largest_mem nonempty)
  obtain rfl | some := eq_or_ne layer []
  · -- The tallest layer has no height, and then no other one has any.
    refine ⟨other, listed', List.ne_nil_of_mem known, le_antisymm ?_ ?_⟩
    · exact le_largest (List.mem_map_of_mem listed')
    · rw [tallestHeight, ← tallest]
      exact (stackHeight_nil _).le.trans (layerHeight_nonneg grown sound.nodes other)
  · exact ⟨layer, listed, some, tallest⟩

/-- No box of an arrangement stands above its top or below its height. -/
theorem arranged_span (sound : s.Sound) (grown : Grown extent)
    (member : a ∈ arranged s extent layers) :
    0 ≤ a.top ∧ a.bottom ≤ tallestHeight s extent layers := by
  rw [arranged_eq] at member
  obtain ⟨layer, listed, above, below⟩ := exists_layer_of_mem_columnSpots sound grown member
  have less : layerHeight s.nodeSeparation extent layer ≤ tallestHeight s extent layers :=
    le_largest (List.mem_map_of_mem listed)
  constructor <;> linarith

/-- An arrangement with boxes ends where its last column does. -/
theorem width_arrange (sound : s.Sound) (grown : Grown extent) (filled : layers.flatten ≠ []) :
    (arrange s extent layers).extent.width =
      columnsEnd s extent (tallestHeight s extent layers) 0 layers - s.rankSeparation := by
  obtain ⟨-, b, last, ends⟩ :=
    columns_attains s extent (tallestHeight s extent layers) 0 layers filled
  have inside := ((columns_bounds sound grown (tallestHeight s extent layers) 0 layers).2 b last).1
  have wide : b.left ≤ b.right := by
    rw [Spot.right, extent_of_mem_columnSpots last]
    exact le_add_of_nonneg_right (grown b.id).1
  rw [arrange_extent]
  refine max_eq_left ?_
  linarith

theorem height_arrange (s : Spacing ℚ) (extent : ι → Extent ℚ) (layers : List (List ι)) :
    (arrange s extent layers).extent.height = tallestHeight s extent layers := by
  rw [arrange_extent]

/-- The boxes of an arrangement touch its extent on each side. -/
theorem arrange_fill (sound : s.Sound) (grown : Grown extent) (filled : layers.flatten ≠ []) :
    Fill (arranged s extent layers) ⟨0, 0⟩ (arrange s extent layers).extent := by
  have bounds := columns_bounds sound grown (tallestHeight s extent layers) 0 layers
  obtain ⟨first, b, last, ends⟩ :=
    columns_attains s extent (tallestHeight s extent layers) 0 layers filled
  obtain ⟨layer, listed, some, tallest⟩ := exists_layer_tallest sound grown filled
  obtain ⟨⟨c, highest, starts⟩, d, lowest, stops⟩ :=
    columns_attains_layer s extent (tallestHeight s extent layers) 0 layers listed some
  rw [tallest] at starts stops
  constructor
  · refine ⟨first, ?_⟩
    rintro _ ⟨a, member, rfl⟩
    exact (bounds.2 a member).1
  · rw [zero_add, width_arrange sound grown filled]
    refine ⟨⟨b, last, eq_sub_of_add_eq ends⟩, ?_⟩
    rintro _ ⟨a, member, rfl⟩
    exact le_sub_iff_add_le.mpr (bounds.2 a member).2
  · refine ⟨⟨c, highest, starts.trans (by ring)⟩, ?_⟩
    rintro _ ⟨a, member, rfl⟩
    exact (arranged_span sound grown member).1
  · rw [zero_add, height_arrange]
    refine ⟨⟨d, lowest, stops.trans (by ring)⟩, ?_⟩
    rintro _ ⟨a, member, rfl⟩
    exact (arranged_span sound grown member).2

end FlowDiagram.Layout
