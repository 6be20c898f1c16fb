import FlowDiagram.Layout.Forest
import FlowDiagram.Proofs.Lists
import Mathlib.Data.List.Nodup
/-!
# Chains of parents

A node is nested in its parent, in the parent of that, and so on. Where no chain of parents
loops, the parents are `Grounded`: each node has a `Chain` that ends at a node without a
parent, and the nodes of the chain are those that the node lies `Within`.

The parents that a layout keeps are grounded, whatever parents the nodes name. Any two nodes
of a grounded list are nested in each other, or they lie in different nodes that stand side
by side (`within_or_apart`).
-/

namespace FlowDiagram.Layout

namespace Parents

variable {ι : Type} [DecidableEq ι]

/-- The second node is the first one or nested in it at any depth. -/
inductive Within (parents : Parents ι) (a : ι) : ι → Prop
  | self : Within parents a a
  | step {x p : ι} (up : parents.lookup x = some p) (above : Within parents a p) :
      Within parents a x

/-- A node, its parent, and so on up to a node without a parent. -/
inductive Chain (parents : Parents ι) : ι → List ι → Prop
  | top {x : ι} (free : parents.lookup x = none) : Chain parents x [x]
  | step {x p : ι} {chain : List ι} (up : parents.lookup x = some p)
      (above : Chain parents p chain) : Chain parents x (x :: chain)

/-- No chain of parents loops. -/
def Grounded (parents : Parents ι) : Prop := ∀ x, ∃ chain, Chain parents x chain

variable {parents : Parents ι} {a b x y p : ι} {chain chain' : List ι}

namespace Within

theorem trans (first : Within parents a b) (second : Within parents b x) :
    Within parents a x := by
  induction second with
  | self => exact first
  | step up above ih => exact .step up ih

theorem of_lookup (up : parents.lookup x = some p) : Within parents p x := .step up .self

/-- Between a node and one nested in it stands a child of the former. -/
theorem eq_or_child (h : Within parents a x) :
    x = a ∨ ∃ b, parents.lookup b = some a ∧ Within parents b x := by
  induction h with
  | self => exact .inl rfl
  | @step x p up above ih =>
      obtain rfl | ⟨b, child, lies⟩ := ih
      · exact .inr ⟨x, up, .self⟩
      · exact .inr ⟨b, child, .step up lies⟩

/-- The nodes around one node are nested in each other. -/
theorem total (ha : Within parents a x) (hb : Within parents b x) :
    Within parents a b ∨ Within parents b a := by
  induction ha with
  | self => exact .inr hb
  | step up above ih =>
      cases hb with
      | self => exact .inl (.step up above)
      | step up' above' =>
          obtain rfl := Option.some.inj (up.symm.trans up')
          exact ih above'

end Within

namespace Chain

theorem unique (h : Chain parents x chain) (h' : Chain parents x chain') : chain = chain' := by
  induction h generalizing chain' with
  | top free =>
      cases h' with
      | top => rfl
      | step up => rw [free] at up; contradiction
  | @step x p chain up above ih =>
      cases h' with
      | top free => rw [free] at up; contradiction
      | step up' above' =>
          obtain rfl := Option.some.inj (up.symm.trans up')
          exact congrArg (x :: ·) (ih above')

theorem mem_iff (h : Chain parents x chain) : a ∈ chain ↔ Within parents a x := by
  induction h with
  | top free =>
      refine List.mem_singleton.trans ⟨fun same => same ▸ .self, ?_⟩
      intro lies
      cases lies with
      | self => rfl
      | step up => rw [free] at up; contradiction
  | step up above ih =>
      rw [List.mem_cons, ih]
      constructor
      · rintro (rfl | lies)
        · exact .self
        · exact .step up lies
      · intro lies
        cases lies with
        | self => exact .inl rfl
        | step up' lies =>
            obtain rfl := Option.some.inj (up.symm.trans up')
            exact .inr lies

/-- The chain of a node ends with the chain of each node around it. -/
theorem exists_suffix (h : Chain parents x chain) (lies : Within parents a x) :
    ∃ rest, Chain parents a rest ∧ rest <:+ chain := by
  induction lies generalizing chain with
  | self => exact ⟨chain, h, List.suffix_rfl⟩
  | step up above ih =>
      cases h with
      | top free => rw [free] at up; contradiction
      | step up' above' =>
          obtain rfl := Option.some.inj (up.symm.trans up')
          obtain ⟨rest, own, tail⟩ := ih above'
          exact ⟨rest, own, tail.trans (List.suffix_cons _ _)⟩

/-- A node with a chain does not lie above itself. -/
theorem not_within_parent (h : Chain parents x chain) (up : parents.lookup x = some p) :
    ¬Within parents x p := by
  intro lies
  cases h with
  | top free => rw [free] at up; contradiction
  | step up' above =>
      obtain rfl := Option.some.inj (up.symm.trans up')
      obtain ⟨rest, own, tail⟩ := above.exists_suffix lies
      obtain rfl := own.unique (.step up above)
      exact absurd tail.length_le (Nat.not_succ_le_self _)

theorem nodup (h : Chain parents x chain) : chain.Nodup := by
  induction h with
  | top free => exact List.nodup_singleton _
  | step up above ih =>
      refine List.nodup_cons.mpr ⟨?_, ih⟩
      intro again
      exact (Chain.step up above).not_within_parent up (above.mem_iff.mp again)

theorem named_of_mem_dropLast (h : Chain parents x chain) :
    ∀ y ∈ chain.dropLast, y ∈ parents.map (·.1) := by
  induction h with
  | top free => exact fun y member => absurd member List.not_mem_nil
  | @step x p chain up above ih =>
      intro y member
      have nonempty : chain ≠ [] := by cases above <;> exact List.cons_ne_nil _ _
      rw [List.dropLast_cons_of_ne_nil nonempty] at member
      obtain rfl | later := List.mem_cons.mp member
      · exact List.mem_map_of_mem (mem_of_lookup up)
      · exact ih y later

/-- All nodes of a chain but the last one name a parent. -/
theorem length_le (h : Chain parents x chain) : chain.length ≤ parents.length + 1 := by
  have distinct : chain.dropLast.Nodup := h.nodup.sublist (List.dropLast_sublist _)
  have short := distinct.length_le_of_subset h.named_of_mem_dropLast
  rw [List.length_dropLast, List.length_map] at short
  omega

end Chain

/-! ## Grounded parents -/

namespace Grounded

theorem not_within_parent (h : Grounded parents) (up : parents.lookup x = some p) :
    ¬Within parents x p := by
  obtain ⟨chain, own⟩ := h x
  exact own.not_within_parent up

/-- Nodes that stand side by side have nothing in common. -/
theorem apart (h : Grounded parents) (other : a ≠ b) (beside : parents.lookup a = parents.lookup b)
    (ha : Within parents a x) (hb : Within parents b x) : False := by
  have one : ∀ {a b : ι}, a ≠ b → parents.lookup a = parents.lookup b → ¬Within parents a b := by
    intro a b other beside lies
    cases lies with
    | self => exact other rfl
    | step up above => exact h.not_within_parent (beside.trans up) above
  obtain lies | lies := ha.total hb
  · exact one other beside lies
  · exact one other.symm beside.symm lies

/-- Each node lies within one that names no parent. -/
theorem exists_root (h : Grounded parents) (x : ι) :
    ∃ r, parents.lookup r = none ∧ Within parents r x := by
  obtain ⟨chain, own⟩ := h x
  induction own with
  | @top x free => exact ⟨x, free, .self⟩
  | step up above ih =>
      obtain ⟨r, free, lies⟩ := ih
      exact ⟨r, free, .step up lies⟩

/-- Two nodes are nested in each other, or they lie in nodes that stand side by side. -/
theorem within_or_apart (h : Grounded parents) (x y : ι) :
    Within parents x y ∨ Within parents y x ∨
      ∃ a b, a ≠ b ∧ parents.lookup a = parents.lookup b ∧ Within parents a x ∧
        Within parents b y := by
  obtain ⟨chain, own⟩ := h x
  induction own with
  | @top x free =>
      obtain ⟨r, free', lies⟩ := h.exists_root y
      by_cases same : x = r
      · exact .inl (same ▸ lies)
      · exact .inr (.inr ⟨x, r, same, free.trans free'.symm, .self, lies⟩)
  | @step x p chain up above ih =>
      obtain inner | outer | ⟨a, b, other, beside, ha, hb⟩ := ih
      · obtain rfl | ⟨b, child, lies⟩ := inner.eq_or_child
        · exact .inr (.inl (.of_lookup up))
        · by_cases same : x = b
          · exact .inl (same ▸ lies)
          · exact .inr (.inr ⟨x, b, same, up.trans child.symm, .self, lies⟩)
      · exact .inr (.inl (.step up outer))
      · exact .inr (.inr ⟨a, b, other, beside, .step up ha, hb⟩)

end Grounded

/-! ## Kept parents -/

/-- Counting steps finds out whether a node has a chain. -/
theorem ends_iff {n : Nat} :
    parents.ends n x = true ↔ ∃ chain, Chain parents x chain ∧ chain.length ≤ n := by
  induction n generalizing x with
  | zero =>
      refine iff_of_false (by simp [ends]) ?_
      rintro ⟨chain, own, short⟩
      cases own <;> simp at short
  | succ n ih =>
      rw [ends]
      split
      · next free => simpa using ⟨[x], Chain.top free, Nat.le_add_left 1 n⟩
      · next p up =>
          rw [ih]
          constructor
          · rintro ⟨chain, own, short⟩
            exact ⟨x :: chain, .step up own, Nat.succ_le_succ short⟩
          · rintro ⟨chain, own, short⟩
            cases own with
            | top free => rw [free] at up; contradiction
            | step up' above =>
                obtain rfl := Option.some.inj (up.symm.trans up')
                exact ⟨_, above, Nat.le_of_succ_le_succ short⟩

theorem loops_eq_false_iff : parents.loops x = false ↔ ∃ chain, Chain parents x chain := by
  rw [loops, Bool.not_eq_false', ends_iff]
  exact ⟨fun ⟨chain, own, _⟩ => ⟨chain, own⟩, fun ⟨chain, own⟩ => ⟨chain, own, own.length_le⟩⟩

theorem lookup_cons_eq (name parent x : ι) (rest : Parents ι) :
    List.lookup x ((name, parent) :: rest) = if x = name then some parent else rest.lookup x := by
  rw [List.lookup_cons]
  by_cases hit : x = name
  · rw [hit, beq_self_eq_true, if_pos rfl]
  · rw [beq_false_of_ne hit, if_neg hit]

theorem lookup_forget (parents : Parents ι) (id x : ι) :
    (parents.forget id).lookup x = if x = id then none else parents.lookup x := by
  induction parents with
  | nil => simp [forget]
  | cons entry rest ih =>
      obtain ⟨name, parent⟩ := entry
      rw [forget] at ih ⊢
      by_cases same : name = id
      · rw [List.filter_cons_of_neg (by simp [same]), ih, lookup_cons_eq, same]
        split <;> rfl
      · rw [List.filter_cons_of_pos (by simp [same]), lookup_cons_eq, lookup_cons_eq, ih]
        by_cases hit : x = name
        · rw [if_pos hit, if_neg (hit ▸ same), if_pos hit]
        · rw [if_neg hit, if_neg hit]

/-- What is forgotten ends chains and never prolongs one. -/
theorem Chain.forget (own : Chain parents x chain) (id : ι) :
    ∃ chain, Chain (parents.forget id) x chain := by
  induction own with
  | @top x free => exact ⟨[x], .top (by rw [lookup_forget, free, ite_self])⟩
  | @step x p chain up above ih =>
      by_cases same : x = id
      · exact ⟨[x], .top (by rw [lookup_forget, if_pos same])⟩
      · obtain ⟨rest, own⟩ := ih
        exact ⟨x :: rest, .step (by rw [lookup_forget, if_neg same, up]) own⟩

/-- Look at some nodes in order, and forget the parent of each one whose chain loops. -/
def cut (ids : List ι) (parents : Parents ι) : Parents ι :=
  ids.foldl (fun parents id => if parents.loops id then parents.forget id else parents) parents

theorem cut_cons (id : ι) (ids : List ι) (parents : Parents ι) :
    cut (id :: ids) parents =
      cut ids (if parents.loops id then parents.forget id else parents) := rfl

theorem kept_eq (items : List (Item ι)) :
    kept items = cut ((declared items).map (·.1)) (declared items) := rfl

/-- A cut keeps the chains that there are, and afterwards each node looked at has one. -/
theorem exists_chain_cut (ids : List ι) (parents : Parents ι)
    (own : (∃ chain, Chain parents x chain) ∨ x ∈ ids) :
    ∃ chain, Chain (cut ids parents) x chain := by
  induction ids generalizing parents with
  | nil => exact own.resolve_right List.not_mem_nil
  | cons id rest ih =>
      rw [cut_cons]
      refine ih _ ?_
      obtain ⟨chain, own⟩ | listed := own
      · refine .inl ?_
        split
        · exact own.forget id
        · exact ⟨chain, own⟩
      · obtain rfl | later := List.mem_cons.mp listed
        · refine .inl ?_
          split
          · exact ⟨[x], .top (by rw [lookup_forget, if_pos rfl])⟩
          · next ends => exact loops_eq_false_iff.mp (Bool.not_eq_true _ ▸ ends)
        · exact .inr later

theorem lookup_cut (ids : List ι) (parents : Parents ι)
    (up : (cut ids parents).lookup x = some p) : parents.lookup x = some p := by
  induction ids generalizing parents with
  | nil => exact up
  | cons id rest ih =>
      rw [cut_cons] at up
      have before := ih _ up
      split at before
      · rw [lookup_forget] at before
        split at before
        · contradiction
        · exact before
      · exact before

theorem grounded_kept (items : List (Item ι)) : Grounded (kept items) := by
  intro x
  rw [kept_eq]
  refine exists_chain_cut _ _ ?_
  cases free : (declared items).lookup x with
  | none => exact .inl ⟨[x], .top free⟩
  | some p => exact .inr (List.mem_map_of_mem (mem_of_lookup free))

/-- A cut changes nothing where no chain loops. -/
theorem cut_of_grounded (grounded : Grounded parents) (ids : List ι) :
    cut ids parents = parents := by
  induction ids with
  | nil => rfl
  | cons id rest ih =>
      have ends := loops_eq_false_iff.mpr (grounded id)
      rw [cut_cons, ends]
      exact ih

end Parents

end FlowDiagram.Layout
