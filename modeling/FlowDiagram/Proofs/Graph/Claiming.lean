import FlowDiagram.Graph.Identifier
import FlowDiagram.Number.Reading
import Mathlib.Data.List.Nodup
/-!
# Claimed identifiers are free

The search for a number looks at as many numbers as there are taken identifiers. Names
with different numbers differ, so these cannot all be taken together with the number after
them: the search always ends at a free name, and no bound on it is ever felt.

Claiming one name after the other therefore gives identifiers that differ from each other
and from all that were taken before.
-/

namespace FlowDiagram.Graph

variable {taken names : List String} {name id : String}

theorem numbered_injective (name : String) : Function.Injective (numbered name) := by
  intro m n h
  exact Number.toString_injective ((String.append_right_inj _).mp h)

/-! ## The search for a number -/

/-- The search passes over taken names only. -/
theorem mem_of_lt_firstFree {tries n i : Nat} (from_n : n ≤ i)
    (before : i < firstFree taken name tries n) : numbered name i ∈ taken := by
  induction tries generalizing n with
  | zero => exact absurd before (Nat.not_lt.mpr from_n)
  | succ tries ih =>
      rw [firstFree] at before
      split at before
      · next first =>
          by_cases h : i = n
          · exact h ▸ first
          · exact ih (by omega) before
      · exact absurd before (Nat.not_lt.mpr from_n)

/-- Where the search stops at a taken name, it has used up its tries. -/
theorem firstFree_of_mem {tries n : Nat}
    (h : numbered name (firstFree taken name tries n) ∈ taken) :
    firstFree taken name tries n = n + tries := by
  induction tries generalizing n with
  | zero => rfl
  | succ tries ih =>
      rw [firstFree] at h ⊢
      split
      · next first =>
          rw [if_pos first] at h
          rw [ih h]
          omega
      · next free =>
          rw [if_neg free] at h
          exact absurd h free

/-- One try for each taken name is enough. -/
theorem numbered_firstFree_not_mem (taken : List String) (name : String) (n : Nat) :
    numbered name (firstFree taken name taken.length n) ∉ taken := by
  intro h
  have last := firstFree_of_mem h
  have all : (List.range' n (taken.length + 1)).map (numbered name) ⊆ taken := by
    intro text member
    obtain ⟨i, range, rfl⟩ := List.mem_map.mp member
    rw [List.mem_range'_1] at range
    by_cases hi : i = n + taken.length
    · rw [hi, ← last]
      exact h
    · have passed : i < firstFree taken name taken.length n := by omega
      exact mem_of_lt_firstFree range.1 passed
  have differ : ((List.range' n (taken.length + 1)).map (numbered name)).Nodup :=
    List.Nodup.map (numbered_injective name) List.nodup_range'
  have short := differ.length_le_of_subset all
  rw [List.length_map, List.length_range'] at short
  omega

/-! ## Claiming -/

theorem claim_not_mem (taken : List String) (name : String) : claim taken name ∉ taken := by
  rw [claim]
  split
  · exact numbered_firstFree_not_mem taken name 2
  · next free => exact free

theorem claim_of_not_mem (free : name ∉ taken) : claim taken name = name := if_neg free

theorem qualify_ne_empty {within : String} (some : within ≠ "") (key : String) :
    qualify within key ≠ "" := by
  rw [qualify, if_neg (by simpa using some)]
  simp

theorem claim_ne_empty (taken : List String) {name : String} (some : name ≠ "") :
    claim taken name ≠ "" := by
  rw [claim]
  split
  · simp [numbered]
  · exact some

@[simp] theorem length_claimAll (taken names : List String) :
    (claimAll taken names).length = names.length := by
  induction names generalizing taken with
  | nil => rfl
  | cons name rest ih => simp [claimAll, ih]

theorem not_mem_of_mem_claimAll (claimed : id ∈ claimAll taken names) : id ∉ taken := by
  induction names generalizing taken with
  | nil => exact absurd claimed List.not_mem_nil
  | cons name rest ih =>
      obtain first | later := List.mem_cons.mp claimed
      · exact first ▸ claim_not_mem taken name
      · exact fun old => ih later (List.mem_cons_of_mem _ old)

/-- Names that differ and are all free stay as they are. -/
theorem claimAll_of_nodup (distinct : names.Nodup) (free : ∀ name ∈ names, name ∉ taken) :
    claimAll taken names = names := by
  induction names generalizing taken with
  | nil => rfl
  | cons name rest ih =>
      obtain ⟨other, distinct⟩ := List.nodup_cons.mp distinct
      obtain ⟨own, others⟩ := List.forall_mem_cons.mp free
      rw [claimAll, claim_of_not_mem own, ih distinct fun name later => ?_]
      refine not_or.mpr ⟨?_, others name later⟩ ∘ List.mem_cons.mp
      exact fun same => other (same ▸ later)

theorem nodup_claimAll (taken names : List String) : (claimAll taken names).Nodup := by
  induction names generalizing taken with
  | nil => exact List.nodup_nil
  | cons name rest ih =>
      refine List.nodup_cons.mpr ⟨?_, ih _⟩
      intro again
      exact not_mem_of_mem_claimAll again List.mem_cons_self

end FlowDiagram.Graph
