import Mathlib.Data.Finset.Card
import Mathlib.Data.Finset.Dedup
import Mathlib.Data.List.Induction
import Mathlib.Data.List.Nodup
import Mathlib.Logic.Relation
/-!
# Lists, names and heights

Repetitions are left out and entries are looked up by comparing elements. Where different
elements get different names, both go along with renaming, and so does a change of one element.

A relation without circles on the elements of a list has a height that rises along it
(`exists_height`): the number of elements from which an element can be reached.
-/

namespace FlowDiagram

section

variable {α : Type}

theorem nodup_eraseDups [BEq α] [LawfulBEq α] (list : List α) : list.eraseDups.Nodup := by
  induction n : list.length using Nat.strongRecOn generalizing list with
  | ind n ih =>
      cases list with
      | nil => exact List.nodup_nil
      | cons a rest =>
          rw [List.eraseDups_cons]
          refine List.nodup_cons.mpr ⟨fun again => ?_, ih _ ?_ _ rfl⟩
          · simp [List.mem_eraseDups] at again
          · have shorter := List.length_filter_le (fun b => !b == a) rest
            simp only [List.length_cons] at n
            omega

theorem eraseDups_filter [BEq α] [LawfulBEq α] (p : α → Bool) (list : List α) :
    (list.filter p).eraseDups = list.eraseDups.filter p := by
  induction list using List.reverseRecOn with
  | nil => rfl
  | append_singleton rest last ih =>
      rw [List.filter_append, List.eraseDups_append, List.eraseDups_append, ih, List.filter_append]
      by_cases kept : p last = true <;> by_cases again : last ∈ rest <;>
        simp [List.removeAll, kept, again, List.eraseDups_cons]

theorem eraseDups_eq_self [BEq α] [LawfulBEq α] {list : List α} (distinct : list.Nodup) :
    list.eraseDups = list := by
  induction list with
  | nil => rfl
  | cons a rest ih =>
      obtain ⟨fresh, distinct⟩ := List.nodup_cons.mp distinct
      have others : rest.filter (fun b => !b == a) = rest :=
        List.filter_eq_self.mpr fun b later => by
          simpa using fun same : b = a => fresh (same ▸ later)
      rw [List.eraseDups_cons, others, ih distinct]

end

section

variable {α β γ δ : Type} [BEq α] [LawfulBEq α] [BEq β] [LawfulBEq β] {f : α → β}

theorem eraseDups_map (injective : Function.Injective f) (list : List α) :
    (list.map f).eraseDups = list.eraseDups.map f := by
  induction list using List.reverseRecOn with
  | nil => rfl
  | append_singleton rest last ih =>
      rw [List.map_append, List.eraseDups_append, List.eraseDups_append, ih, List.map_append]
      by_cases again : last ∈ rest <;>
        simp [List.removeAll, again, injective.eq_iff, List.eraseDups_cons]

/-- Whatever is found in a list is one of its entries. -/
theorem mem_of_lookup {list : List (α × γ)} {key : α} {c : γ}
    (found : list.lookup key = some c) : (key, c) ∈ list := by
  obtain ⟨before, after, split, -⟩ := List.lookup_eq_some_iff.mp found
  rw [split]
  exact List.mem_append_right before List.mem_cons_self

/-- Whatever a list has an entry for is found in it. -/
theorem exists_lookup_of_mem_keys {list : List (α × γ)} {key : α}
    (member : key ∈ list.map Prod.fst) : ∃ c, list.lookup key = some c := by
  cases found : list.lookup key with
  | some c => exact ⟨c, rfl⟩
  | none =>
      obtain ⟨entry, listed, same⟩ := List.mem_map.mp member
      have other := List.lookup_eq_none_iff.mp found entry listed
      simp [same] at other

theorem lookup_map_map (injective : Function.Injective f) (g : γ → δ) (list : List (α × γ))
    (key : α) : (list.map (Prod.map f g)).lookup (f key) = (list.lookup key).map g := by
  induction list with
  | nil => rfl
  | cons entry rest ih =>
      obtain ⟨k, c⟩ := entry
      have same : (f key == f k) = (key == k) := by
        rw [Bool.eq_iff_iff, beq_iff_eq, beq_iff_eq, injective.eq_iff]
      rw [List.map_cons, Prod.map_apply, List.lookup_cons, List.lookup_cons, ih, same]
      cases key == k <;> rfl

end

section

variable {α β : Type} {f : α → β}

/-- A change of one element goes along with a change of all. -/
theorem modify_map {change : α → α} {change' : β → β} (each : ∀ a, change' (f a) = f (change a))
    (list : List α) (n : Nat) : (list.map f).modify n change' = (list.modify n change).map f := by
  induction list generalizing n with
  | nil => simp
  | cons a rest ih =>
      cases n with
      | zero => simp [each]
      | succ n => simp [ih]

/-- What one element of a list gives alone is all that the list gives. -/
theorem filterMap_eq_singleton {f : α → Option β} {list : List α} {a : α} {b : β}
    (distinct : list.Nodup) (member : a ∈ list) (here : f a = some b)
    (nowhere : ∀ c ∈ list, c ≠ a → f c = none) : list.filterMap f = [b] := by
  obtain ⟨before, after, rfl⟩ := List.append_of_mem member
  have others : ∀ c ∈ before ++ after, f c = none := by
    intro c listed
    apply nowhere c (List.perm_middle.mem_iff.mpr (.tail _ listed))
    rintro rfl
    exact (List.nodup_middle.mp distinct).notMem listed
  obtain ⟨early, late⟩ := List.forall_mem_append.mp others
  rw [List.filterMap_append, List.filterMap_cons_some here, List.filterMap_eq_nil_iff.mpr early,
    List.filterMap_eq_nil_iff.mpr late]
  rfl

end

/-- Along a relation without circles, some height of the elements rises. -/
theorem exists_height {α : Type} {list : List α} {R : α → α → Prop}
    (known : ∀ a b, R a b → a ∈ list) (acyclic : ∀ a, ¬Relation.TransGen R a a) :
    ∃ height : α → Nat, ∀ a b, R a b → height a < height b := by
  classical
  refine ⟨fun b => (list.toFinset.filter (Relation.TransGen R · b)).card, ?_⟩
  intro a b related
  refine Finset.card_lt_card (Finset.ssubset_iff_of_subset ?_ |>.mpr ⟨a, ?_, ?_⟩)
  · intro c before
    obtain ⟨member, path⟩ := Finset.mem_filter.mp before
    exact Finset.mem_filter.mpr ⟨member, path.tail related⟩
  · exact Finset.mem_filter.mpr ⟨List.mem_toFinset.mpr (known a b related), .single related⟩
  · exact fun again => acyclic a (Finset.mem_filter.mp again).2

end FlowDiagram
