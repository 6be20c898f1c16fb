import FlowDiagram.Proofs.Store.Session
import Mathlib.Data.List.Pairwise
/-!
# Overlapping calls

Calls overlap when one takes turns between those of another. Whatever the schedule, the
versions of each flow count up from one, each row is the work of one call and stays as it is,
and a call that fails has added nothing (`rows_of_overlapping_calls`).

That a number is never given twice needs no more than that numbers count up: a save that
comes too late holds a number that a row already has.
-/

namespace FlowDiagram.Store

open Document

namespace Tracks

variable {calls : List Call} {s : Session} {call other : Nat} {row : VersionRow} {flow : String}

/-! ## Rows and the calls that added them -/

theorem extends_turn (tracks : Tracks calls s) (call : Nat) :
    s.store.held.Extends (s.turn call).store.held := by
  rw [Session.turn]
  cases here : s.tasks[call]? with
  | none => exact .refl _
  | some task => exact (advances_task tracks.sound (tracks.recorded call task here)).extends_

/-- Rows stay where they are for ever. -/
theorem extends_run (tracks : Tracks calls s) (schedule : List Nat) :
    s.store.held.Extends (s.run schedule).store.held := by
  induction schedule generalizing s with
  | nil => exact .refl _
  | cons call rest ih => exact (tracks.extends_turn call).trans (ih (tracks.turn call))

theorem mem_rowsOf {row : Row} : row ∈ s.rowsOf call ↔ (call, row) ∈ s.inserted := by
  simp only [Session.rowsOf, List.mem_map, List.mem_filter, beq_iff_eq]
  constructor
  · rintro ⟨⟨_, _⟩, ⟨member, rfl⟩, rfl⟩
    exact member
  · exact fun member => ⟨_, ⟨member, rfl⟩, rfl⟩

theorem version?_eq_some {r : Row} : r.version? = some row ↔ r = .version row := by
  cases r <;> simp [Row.version?]

theorem mem_versions (tracks : Tracks calls s) :
    row ∈ s.store.held.versions ↔ ∃ call, .version row ∈ s.rowsOf call := by
  simp only [tracks.versions, List.mem_filterMap, version?_eq_some, mem_rowsOf, Prod.exists,
    exists_eq_right]

/-- No two calls add the same row. -/
theorem call_unique (tracks : Tracks calls s) (added : .version row ∈ s.rowsOf call)
    (added' : .version row ∈ s.rowsOf other) : call = other := by
  let Apart (a b : Nat × Row) : Prop :=
    ∀ row, a.2.version? = some row → ∀ row', b.2.version? = some row' → row ≠ row'
  have once : s.inserted.Pairwise Apart := by
    apply List.pairwise_filterMap.mp
    rw [← tracks.versions]
    exact tracks.sound.held.numbered.nodup
  have symmetric : Std.Symm Apart :=
    ⟨fun _ _ apart row here row' there => (apart row' there row here).symm⟩
  by_contra differ
  exact once.forall (mem_rowsOf.mp added) (mem_rowsOf.mp added')
    (fun same => differ (congrArg Prod.fst same)) row rfl row rfl rfl

theorem asked_task (tracks : Tracks calls s) {task : Task} (here : s.tasks[call]? = some task) :
    calls[call]? = some task.call := by
  rw [← tracks.asked, List.getElem?_map, here]
  rfl

/-- The row of a version is all that its call added, and it holds what the call was given. -/
theorem rowsOf_eq (tracks : Tracks calls s) (added : .version row ∈ s.rowsOf call) :
    s.rowsOf call = [.version row] ∧ ∃ d, calls[call]? = some (.save d) ∧ row.Holds d := by
  have here := List.getElem?_eq_getElem (tracks.known _ (mem_rowsOf.mp added))
  obtain nothing | ⟨-, ⟨_, _, _, only, -⟩ | ⟨_, d, only, save, holds⟩⟩ :=
    (tracks.recorded call _ here).cases
  · rw [nothing] at added
    contradiction
  · rw [only] at added
    simp at added
  · rw [only] at added
    obtain rfl : row = _ := by simpa using added
    exact ⟨only, d, save ▸ tracks.asked_task here, holds⟩

/-- A call that fails has added nothing. -/
theorem rowsOf_eq_nil (tracks : Tracks calls s) {fault : Fault}
    (failed : s.fault? call = some fault) : s.rowsOf call = [] := by
  obtain ⟨task, here, failed⟩ := Option.bind_eq_some_iff.mp failed
  obtain nothing | ⟨sound, -⟩ := (tracks.recorded call task here).cases
  · exact nothing
  · rw [sound] at failed
    contradiction

end Tracks

/-- In every session the versions of each flow are numbered from one on. Each row that is
stored for a version was added by one call, which added nothing else, and holds what this
call was given. A call that fails has added nothing, and no row ever changes. -/
theorem rows_of_overlapping_calls (drawn : Nat) (calls : List Call) (schedule : List Nat) :
    let s := (Session.opened drawn calls).run schedule
    (∀ flow, (s.store.held.versionsOf flow).map VersionRow.version =
        List.range' 1 (s.store.held.versionsOf flow).length) ∧
      (∀ row ∈ s.store.held.versions, ∃! call, .version row ∈ s.rowsOf call) ∧
      (∀ call row, .version row ∈ s.rowsOf call → row ∈ s.store.held.versions ∧
        s.rowsOf call = [.version row] ∧ ∃ d, calls[call]? = some (.save d) ∧ row.Holds d) ∧
      (∀ call fault, s.fault? call = some fault → s.rowsOf call = []) ∧
      ∀ more, s.store.held.Extends (s.run more).store.held := by
  intro s
  have tracks : Tracks calls s := (tracks_opened drawn calls).run schedule
  refine ⟨tracks.sound.held.numbered, ?_, ?_, fun _ _ => tracks.rowsOf_eq_nil,
    tracks.extends_run⟩
  · intro row stored
    obtain ⟨call, added⟩ := tracks.mem_versions.mp stored
    exact ⟨call, added, fun other added' => tracks.call_unique added' added⟩
  · intro call row added
    exact ⟨tracks.mem_versions.mpr ⟨call, added⟩, tracks.rowsOf_eq added⟩

/-- A flow and four saves in it. The status of the last one is a list. -/
def colliding : List Call :=
  [.prepare, .create (.str "review") .null,
    .save ⟨.str "id-1", .str "first", .str "draft"⟩,
    .save ⟨.str "id-1", .str "second", .str "draft"⟩,
    .save ⟨.str "id-1", .str "third", .str "final"⟩,
    .save ⟨.str "id-1", .str "fourth", .seq []⟩]

/-- The first two saves take turns, so that both look up the last version before either adds
its own. The others follow. -/
def collision : List Nat := [0, 0, 1, 1, 2, 3, 2, 3, 2, 3, 2, 3, 4, 4, 4, 4, 5, 5, 5, 5]

/-- The saves that are not refused count up, their rows hold their texts, and the others have
added nothing. -/
theorem rows_of_overlapping_calls_colliding :
    let s := (Session.opened 0 colliding).run collision
    let first : VersionRow := ⟨"id-2", "id-1", 1, "first", some "draft"⟩
    let third : VersionRow := ⟨"id-4", "id-1", 2, "third", some "final"⟩
    s.store.held.versionsOf "id-1" = [first, third] ∧
      [1, 2] = List.range' 1 2 ∧
      (∃! call, .version third ∈ s.rowsOf call) ∧
      (s.rowsOf 4 = [.version third] ∧ ∃ d, colliding[4]? = some (.save d) ∧ third.Holds d) ∧
      s.rowsOf 3 = [] ∧ s.rowsOf 5 = [] ∧
      s.store.held.Extends (s.run [2, 3]).store.held := by
  obtain ⟨numbered, attributed, held, failed, kept⟩ :=
    rows_of_overlapping_calls 0 colliding collision
  have stored : ((Session.opened 0 colliding).run collision).store.held.versions =
      [⟨"id-2", "id-1", 1, "first", some "draft"⟩, ⟨"id-4", "id-1", 2, "third", some "final"⟩] := by
    decide +kernel
  have own : Row.version ⟨"id-4", "id-1", 2, "third", some "final"⟩ ∈
      ((Session.opened 0 colliding).run collision).rowsOf 4 := by decide +kernel
  have listed : ((Session.opened 0 colliding).run collision).store.held.versionsOf "id-1" =
      [⟨"id-2", "id-1", 1, "first", some "draft"⟩, ⟨"id-4", "id-1", 2, "third", some "final"⟩] := by
    rw [Tables.versionsOf, stored]
    rfl
  have numbers := numbered "id-1"
  rw [listed] at numbers
  refine ⟨listed, numbers, attributed _ (by rw [stored]; simp), (held 4 _ own).2,
    failed 3 .versionTaken (by decide +kernel),
    failed 5 (.unsupported 5 "list") (by decide +kernel), kept [2, 3]⟩

end FlowDiagram.Store
