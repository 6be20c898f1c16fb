import FlowDiagram.Proofs.Layout.Separation
/-!
# Edges between boxes that hold their ends

An edge is lifted to the container in which its two ends part: there it joins two different
children, and these are the only two (`Lifts.unique`). In every other container both ends lie
in one child or outside.

So if some order of the nodes rises along every edge in the container where its ends part, it
rises along all arcs that are ranked, and each edge leads to the right (`ahead_of_rising`).
-/

namespace FlowDiagram.Layout

namespace Parents

variable {ι : Type} [DecidableEq ι] {parents : Parents ι} {members : List ι}
variable {parent : Option ι} {a b u v x y : ι} {n : Nat}

theorem within_of_lift (found : parents.lift members n x = some a) :
    a ∈ members ∧ Within parents a x := by
  induction n generalizing x with
  | zero => contradiction
  | succ n ih =>
      rw [lift] at found
      split at found
      · next member =>
          obtain rfl := Option.some.inj found
          exact ⟨member, .self⟩
      · split at found
        · contradiction
        · next p up =>
            obtain ⟨member, lies⟩ := ih found
            exact ⟨member, .step up lies⟩

/-- A node is lifted to the member that it lies in, if members stand side by side. -/
theorem lift_eq_some (grounded : Grounded parents) {chain : List ι} (own : Chain parents x chain)
    (room : chain.length ≤ n) (beside : ∀ m ∈ members, parents.lookup m = parent)
    (member : a ∈ members) (lies : Within parents a x) : parents.lift members n x = some a := by
  induction n generalizing x chain with
  | zero => cases own <;> simp at room
  | succ n ih =>
      rw [lift]
      cases lies with
      | self => rw [if_pos member]
      | step up above =>
          have outside : x ∉ members := fun again =>
            grounded.not_within_parent ((beside a member).trans (beside x again).symm |>.trans up)
              above
          cases own with
          | top free => rw [free] at up; contradiction
          | step up' own =>
              obtain rfl := Option.some.inj (up.symm.trans up')
              rw [if_neg outside, up]
              exact ih own (Nat.le_of_succ_le_succ room) above

/-- Two nodes part in one place: whatever stands side by side around them is determined. -/
theorem Grounded.beside_unique (h : Grounded parents) (beside : parents.lookup a = parents.lookup b)
    (beside' : parents.lookup u = parents.lookup v) (other : a ≠ b) (other' : u ≠ v)
    (ha : Within parents a x) (hu : Within parents u x) (hb : Within parents b y)
    (hv : Within parents v y) : a = u ∧ b = v := by
  have inner : ∀ {a b u v : ι}, parents.lookup a = parents.lookup b →
      parents.lookup u = parents.lookup v → a ≠ b → Within parents b y → Within parents v y →
      Within parents a u → a = u := by
    intro a b u v beside beside' other hb hv lies
    cases lies with
    | self => rfl
    | step up above =>
        -- The common parent of the inner two lies in `a`, and so does the second end.
        have around : Within parents a y := (Within.step (beside' ▸ up) above).trans hv
        exact absurd hb (h.apart other beside around)
  obtain rfl : a = u := by
    obtain lies | lies := ha.total hu
    · exact inner beside beside' other hb hv lies
    · exact (inner beside' beside other' hv hb lies).symm
  refine ⟨rfl, by_contra fun different => ?_⟩
  exact h.apart different (beside.symm.trans beside') hb hv

theorem mem_liftedArcs {edges : List (ι × ι)} :
    (a, b) ∈ parents.liftedArcs edges members ↔ ∃ e ∈ edges,
      parents.lift members (parents.length + 1) e.1 = some a ∧
      parents.lift members (parents.length + 1) e.2 = some b ∧ a ≠ b := by
  rw [liftedArcs, List.mem_filterMap]
  refine exists_congr fun e => and_congr_right ?_
  intro _
  obtain ⟨source, target⟩ := e
  dsimp only
  split <;> grind

end Parents

open Parents

variable {ι β : Type} [DecidableEq ι] [LinearOrder β] {s : Spacing ℚ} {items : List (Item ι)}
variable {edges : List (ι × ι)} {parent : Option ι} {e : ι × ι} {a b u v : ι}

/-- The ends of an edge lie in two different nodes that stand side by side. -/
structure Lifts (items : List (Item ι)) (e : ι × ι) (a b : ι) : Prop where
  known : a ∈ items.map (·.id)
  known' : b ∈ items.map (·.id)
  beside : (kept items).lookup a = (kept items).lookup b
  other : a ≠ b
  source : Within (kept items) a e.1
  target : Within (kept items) b e.2

theorem Lifts.unique (h : Lifts items e a b) (h' : Lifts items e u v) : a = u ∧ b = v :=
  (grounded_kept items).beside_unique h.beside h'.beside h.other h'.other h.source h'.source
    h.target h'.target

theorem mem_childArcs : (a, b) ∈ childArcs items edges parent ↔
    ∃ e ∈ edges, Lifts items e a b ∧ (kept items).lookup a = parent := by
  have grounded := grounded_kept items
  have beside : ∀ m ∈ children items parent, (kept items).lookup m = parent :=
    fun m member => (mem_children.mp member).2
  rw [childArcs, mem_liftedArcs]
  refine exists_congr fun e => and_congr_right ?_
  intro _
  constructor
  · rintro ⟨from_a, to_b, other⟩
    obtain ⟨member, source⟩ := within_of_lift from_a
    obtain ⟨member', target⟩ := within_of_lift to_b
    obtain ⟨known, up⟩ := mem_children.mp member
    obtain ⟨known', up'⟩ := mem_children.mp member'
    exact ⟨⟨known, known', up.trans up'.symm, other, source, target⟩, up⟩
  · rintro ⟨h, up⟩
    obtain ⟨chain, own⟩ := grounded e.1
    obtain ⟨chain', own'⟩ := grounded e.2
    have member := mem_children.mpr ⟨h.known, up⟩
    have member' := mem_children.mpr ⟨h.known', h.beside.symm.trans up⟩
    exact ⟨lift_eq_some grounded own own.length_le beside member h.source,
      lift_eq_some grounded own' own'.length_le beside member' h.target, h.other⟩

/-- Where an order of the nodes rises along every edge, all edges lead to the right. -/
theorem ahead_of_rising (distinct : (items.map (·.id)).Nodup) (sound : s.Sound) {f : ι → β}
    (rises : ∀ e ∈ edges, ∃ a b, Lifts items e a b ∧ f a < f b) (member : e ∈ edges) :
    (spotOf (spots s items edges) e.1).Ahead (spotOf (spots s items edges) e.2) s := by
  obtain ⟨a, b, h, -⟩ := rises e member
  have rising : Digraph.Rising f (childArcs items edges ((kept items).lookup a)) := by
    rintro ⟨u, v⟩ arc
    obtain ⟨e', member', h', -⟩ := mem_childArcs.mp arc
    obtain ⟨u', v', h'', less⟩ := rises e' member'
    obtain ⟨rfl, rfl⟩ := h'.unique h''
    exact less
  have ha : a ∈ children items ((kept items).lookup a) := mem_children.mpr ⟨h.known, rfl⟩
  have hb : b ∈ children items ((kept items).lookup a) := mem_children.mpr ⟨h.known', h.beside.symm⟩
  obtain ⟨origin, extent, placed⟩ :=
    exists_placed edges distinct sound _ (List.ne_nil_of_mem ha)
  have ahead := placed.ahead sound (nodup_children distinct _) rising
    (List.mem_map_of_mem ha) (List.mem_map_of_mem hb) ?_
  · exact ahead.mono (holds_of_within distinct sound h.source)
      (holds_of_within distinct sound h.target)
  · rw [(spotOf_mem edges distinct sound h.known).2, (spotOf_mem edges distinct sound h.known').2]
    exact mem_childArcs.mpr ⟨e, member, h, rfl⟩

end FlowDiagram.Layout
