import FlowDiagram.Number.Reading
import FlowDiagram.Store.Basic
import Mathlib.Data.List.Nodup
/-!
# Versions count up

`Tables.Numbered` says that the versions of every flow are numbered from one on, in the order
in which their rows stand. It holds of empty tables and is kept by each row that is added with
the number behind the last one (`Numbered.add`).

Under this invariant the last version of a flow is the number of its versions, so the next
number is never taken (`Numbered.addVersion_eq`), and looking for a number finds the row at
its place (`Numbered.find?_eq`).

`Tables.Sound` adds that versions belong to flows and that identifiers were drawn before, so
that the next one is new (`Sound.fresh`). Both ways to add a row keep it.

`Tables.Extends` says that rows were only added: whatever was found before is found again.
-/

namespace FlowDiagram.Store

open Document

namespace Tables

variable {t : Tables} {row : VersionRow} {flow id : String}

/-- Add the row of a version. -/
def withVersion (t : Tables) (row : VersionRow) : Tables :=
  { t with versions := t.versions ++ [row] }

@[simp] theorem flows_withVersion (t : Tables) (row : VersionRow) :
    (t.withVersion row).flows = t.flows := rfl

@[simp] theorem versions_withVersion (t : Tables) (row : VersionRow) :
    (t.withVersion row).versions = t.versions ++ [row] := rfl

@[simp] theorem flow?_withVersion (t : Tables) (row : VersionRow) (id : String) :
    (t.withVersion row).flow? id = t.flow? id := rfl

@[simp] theorem versionsOf_addFlow (t : Tables) (row : FlowRow) (flow : String) :
    (t.addFlow row).versionsOf flow = t.versionsOf flow := rfl

theorem versionsOf_withVersion (t : Tables) (row : VersionRow) (flow : String) :
    (t.withVersion row).versionsOf flow =
      t.versionsOf flow ++ if row.flow = flow then [row] else [] := by
  by_cases own : row.flow = flow <;> simp [versionsOf, own]

theorem flow_of_mem_versionsOf (member : row ∈ t.versionsOf flow) : row.flow = flow := by
  simpa using (List.mem_filter.mp member).2

theorem mem_versionsOf : row ∈ t.versionsOf flow ↔ row ∈ t.versions ∧ row.flow = flow := by
  simp [versionsOf]

/-- Rows were only added, behind those that were there. -/
structure Extends (t t' : Tables) : Prop where
  flows : t.flows <+: t'.flows
  versions : t.versions <+: t'.versions

namespace Extends

variable {t' t'' : Tables}

theorem refl (t : Tables) : t.Extends t := ⟨List.prefix_rfl, List.prefix_rfl⟩

theorem trans (first : t.Extends t') (rest : t'.Extends t'') : t.Extends t'' :=
  ⟨first.flows.trans rest.flows, first.versions.trans rest.versions⟩

theorem addFlow (t : Tables) (row : FlowRow) : t.Extends (t.addFlow row) :=
  ⟨List.prefix_append _ _, List.prefix_rfl⟩

theorem withVersion (t : Tables) (row : VersionRow) : t.Extends (t.withVersion row) :=
  ⟨List.prefix_rfl, List.prefix_append _ _⟩

theorem flow? (ext : t.Extends t') {found : FlowRow} (known : t.flow? id = some found) :
    t'.flow? id = some found := by
  obtain ⟨more, same⟩ := ext.flows
  rw [Tables.flow?, ← same, List.find?_append, ← Tables.flow?, known, Option.some_or]

theorem versionsOf (ext : t.Extends t') (flow : String) :
    t.versionsOf flow <+: t'.versionsOf flow :=
  ext.versions.filter _

end Extends

/-- The versions of every flow are numbered from one on. -/
def Numbered (t : Tables) : Prop :=
  ∀ flow, (t.versionsOf flow).map VersionRow.version =
    List.range' 1 (t.versionsOf flow).length

theorem numbered_empty : Numbered {} := fun _ => rfl

namespace Numbered

theorem addFlow (h : t.Numbered) (row : FlowRow) : (t.addFlow row).Numbered := h

/-- The number behind the last one keeps the order. -/
theorem add (h : t.Numbered) (next : row.version = (t.versionsOf row.flow).length + 1) :
    (t.withVersion row).Numbered := by
  intro flow
  rw [versionsOf_withVersion]
  split
  · next own =>
      subst own
      rw [List.map_append, h row.flow, List.length_append, List.length_singleton,
        List.range'_1_concat, List.map_singleton, next, Nat.add_comm 1]
  · rw [List.append_nil]
    exact h flow

theorem version_getElem (h : t.Numbered) (flow : String) {i : Nat}
    (bound : i < (t.versionsOf flow).length) : (t.versionsOf flow)[i].version = i + 1 := by
  have same : ((t.versionsOf flow).map VersionRow.version)[i]? = some (1 + i) := by
    rw [h flow]
    simp [bound]
  rw [List.getElem?_map, List.getElem?_eq_getElem bound, Option.map_some, Option.some.injEq] at same
  omega

theorem lastVersion_eq (h : t.Numbered) (flow : String) :
    t.lastVersion flow = (t.versionsOf flow).length := by
  have up (n : Nat) : (List.range' 1 n).foldl max 0 = n := by
    induction n with
    | zero => rfl
    | succ n ih => rw [List.range'_1_concat, List.foldl_concat, ih]; omega
  rw [lastVersion, h flow, up]

theorem version_le (h : t.Numbered) (member : row ∈ t.versionsOf flow) :
    row.version ≤ (t.versionsOf flow).length := by
  have listed : row.version ∈ (t.versionsOf flow).map VersionRow.version :=
    List.mem_map_of_mem member
  rw [h flow, List.mem_range'_1] at listed
  omega

theorem version_pos (h : t.Numbered) (member : row ∈ t.versionsOf flow) : 1 ≤ row.version := by
  obtain ⟨i, bound, rfl⟩ := List.getElem_of_mem member
  rw [h.version_getElem flow bound]
  omega

/-- A flow has one row for each number. -/
theorem eq_of_version_eq (h : t.Numbered) {other : VersionRow} (member : row ∈ t.versionsOf flow)
    (member' : other ∈ t.versionsOf flow) (same : row.version = other.version) : row = other := by
  obtain ⟨i, bound, rfl⟩ := List.getElem_of_mem member
  obtain ⟨j, bound', rfl⟩ := List.getElem_of_mem member'
  rw [h.version_getElem flow bound, h.version_getElem flow bound'] at same
  obtain rfl : i = j := by omega
  rfl

/-- No row stands in two places. -/
theorem nodup (h : t.Numbered) : t.versions.Nodup := by
  apply List.nodup_iff_count_le_one.mpr
  intro row
  have numbers : ((t.versionsOf row.flow).map VersionRow.version).Nodup :=
    h row.flow ▸ List.nodup_range'
  have once := List.nodup_iff_count_le_one.mp numbers.of_map row
  rwa [versionsOf, List.count_filter (by simp)] at once

/-- A number up to the last one is taken. -/
theorem exists_version (h : t.Numbered) {n : Nat} (first : 1 ≤ n)
    (last : n ≤ (t.versionsOf flow).length) : ∃ row ∈ t.versionsOf flow, row.version = n := by
  have bound : n - 1 < (t.versionsOf flow).length := by omega
  refine ⟨(t.versionsOf flow)[n - 1], List.getElem_mem bound, ?_⟩
  rw [h.version_getElem flow bound]
  omega

/-- The number behind the last one is not taken. -/
theorem addVersion_eq (h : t.Numbered)
    (next : row.version = (t.versionsOf row.flow).length + 1) :
    t.addVersion row = .ok (t.withVersion row) := by
  have free : ¬t.versions.any fun r => r.flow == row.flow && r.version == row.version := by
    intro taken
    obtain ⟨r, member, same⟩ := List.any_eq_true.mp taken
    obtain ⟨flow, version⟩ := (Bool.and_eq_true _ _).mp same
    have bound := h.version_le (List.mem_filter.mpr ⟨member, flow⟩)
    have number : r.version = row.version := eq_of_beq version
    omega
  rw [addVersion, if_neg free]
  rfl

/-- Looking for a number finds the row at its place, and nothing behind the last one. -/
theorem find?_eq (h : t.Numbered) (flow : String) (v : Int) :
    (t.versionsOf flow).find? (fun row => (Cell.int v).isVersion row.version) =
      if 1 ≤ v then (t.versionsOf flow)[(v - 1).toNat]? else none := by
  have from_first (rows : List VersionRow) (first : Nat)
      (numbers : rows.map VersionRow.version = List.range' first rows.length) :
      rows.find? (fun row => (Cell.int v).isVersion row.version) =
        if (first : Int) ≤ v then rows[(v - first).toNat]? else none := by
    induction rows generalizing first with
    | nil => simp
    | cons row rest ih =>
        rw [List.map_cons, List.length_cons, List.range'_succ, List.cons.injEq] at numbers
        obtain ⟨here, numbers⟩ := numbers
        rw [List.find?_cons, ih (first + 1) numbers]
        by_cases hit : v = first
        · simp [Cell.isVersion, here, hit]
        · have other : (Cell.int v).isVersion row.version = false := by
            simpa [Cell.isVersion, here] using hit
          rw [other]
          by_cases later : (first : Int) + 1 ≤ v
          · have place : (v - first).toNat = (v - (first + 1)).toNat + 1 := by omega
            have past : (first : Int) ≤ v := by omega
            simp [later, past, place]
          · have before : ¬(first : Int) ≤ v := by omega
            simp [later, before]
  exact from_first _ 1 (h flow)

/-- Looking for the number of a row finds this row. -/
theorem find?_of_mem (h : t.Numbered) (member : row ∈ t.versionsOf flow) :
    (t.versionsOf flow).find? (fun r => (Cell.int row.version).isVersion r.version) = some row := by
  have hit : ((t.versionsOf flow).find? fun r => (Cell.int row.version).isVersion r.version).isSome :=
    List.find?_isSome.mpr ⟨row, member, beq_self_eq_true _⟩
  obtain ⟨other, found⟩ := Option.isSome_iff_exists.mp hit
  have same : (row.version : Int) = other.version := by
    simpa [Cell.isVersion] using List.find?_some found
  have number : row.version = other.version := by omega
  rw [found, h.eq_of_version_eq member (List.mem_of_find?_eq_some found) number]

end Numbered

/-! ## Tables of a store -/

/-- The identifier that is drawn after so many others. -/
def identifier (drawn : Nat) : String := "id-" ++ toString (drawn + 1)

theorem identifier_injective : Function.Injective identifier := by
  intro m n same
  have next := Number.toString_injective ((String.append_right_inj "id-").mp same)
  omega

/-- Tables in which versions count up and belong to flows, and in which the flows have
identifiers among the first that were drawn. -/
structure Sound (t : Tables) (drawn : Nat) : Prop where
  numbered : t.Numbered
  known : ∀ row ∈ t.versions, ∃ flow, t.flow? row.flow = some flow
  drawn : ∀ row ∈ t.flows, ∃ n < drawn, row.id = identifier n

theorem sound_empty (drawn : Nat) : Sound {} drawn where
  numbered := numbered_empty
  known _ member := absurd member List.not_mem_nil
  drawn _ member := absurd member List.not_mem_nil

namespace Sound

variable {drawn : Nat}

/-- Identifiers may be drawn that belong to no row. -/
theorem later (h : t.Sound drawn) {drawn' : Nat} (more : drawn ≤ drawn') : t.Sound drawn' where
  numbered := h.numbered
  known := h.known
  drawn row member := by
    obtain ⟨n, before, named⟩ := h.drawn row member
    exact ⟨n, by omega, named⟩

/-- The next identifier belongs to no flow. -/
theorem fresh (h : t.Sound drawn) : t.flow? (identifier drawn) = none := by
  apply List.find?_eq_none.mpr
  intro row member same
  obtain ⟨n, before, named⟩ := h.drawn row member
  have number := identifier_injective (named.symm.trans (eq_of_beq same))
  omega

/-- A new flow gets the next identifier. It has no versions yet. -/
theorem addFlow (h : t.Sound drawn) (name : String) (description : Option String) :
    (t.addFlow ⟨identifier drawn, name, description⟩).Sound (drawn + 1) where
  numbered := h.numbered.addFlow _
  known row member := by
    obtain ⟨flow, found⟩ := h.known row member
    exact ⟨flow, List.find?_append.trans (by rw [← flow?, found, Option.some_or])⟩
  drawn row member := by
    obtain old | new := List.mem_append.mp member
    · obtain ⟨n, before, named⟩ := h.drawn row old
      exact ⟨n, by omega, named⟩
    · obtain rfl := List.mem_singleton.mp new
      exact ⟨drawn, by omega, rfl⟩

/-- A new version belongs to a flow and follows its last one. -/
theorem withVersion (h : t.Sound drawn) {flow : FlowRow} (known : t.flow? row.flow = some flow)
    (next : row.version = (t.versionsOf row.flow).length + 1) :
    (t.withVersion row).Sound (drawn + 1) where
  numbered := h.numbered.add next
  known other member := by
    obtain old | new := List.mem_append.mp member
    · exact h.known other old
    · obtain rfl := List.mem_singleton.mp new
      exact ⟨flow, known⟩
  drawn := (h.later (Nat.le_succ drawn)).drawn

end Sound

end Tables

end FlowDiagram.Store
