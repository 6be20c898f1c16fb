import FlowDiagram.Proofs.Outcomes
import FlowDiagram.Proofs.Store.Tables
import FlowDiagram.Store.Saving
/-!
# Sessions of a store

A session is a store that was connected, with calls that take turns in any order, one turn of
one call at a time. A save has the four turns of `Saving`. Preparing a store and creating a
flow have two: the first does the work and the second makes it final. Beside the store the
session records which rows appeared in the turns of which call.

A turn adds at most one row, behind all others, and what a call has added is determined by how
far it has come (`Recorded`). A save adds its row only under the number behind the last one:
a lower number belongs to a row already. From this follow one turn (`Tracks.turn`) and, by
induction on the schedule, every session (`Tracks.run`).
-/

namespace FlowDiagram.Store

open Document

/-! ## Calls and their turns -/

inductive Call where
  | prepare
  | create (name description : Value)
  | save (draft : Draft)

/-- How far an operation has come that does its work in its first turn. -/
inductive Working (α : Type) where
  | started
  | worked (a : α)
  | returned (a : α)
  | failed (fault : Fault)

/-- The next turn of such an operation. -/
def Working.advance {α : Type} (work : Store → Outcome α) (s : Store) :
    Working α → Working α × Store
  | .started =>
    match work s with
    | (.ok a, s) => (.worked a, s)
    | (.error fault, s) => (.failed fault, s)
  | .worked a => (.returned a, s)
  | .returned a => (.returned a, s)
  | .failed fault => (.failed fault, s)

/-- A call and how far it has come. -/
inductive Task where
  | preparing (stage : Working Unit)
  | creating (name description : Value) (stage : Working CreatedFlow)
  | saving (draft : Draft) (stage : Saving)

def Call.task : Call → Task
  | .prepare => .preparing .started
  | .create name description => .creating name description .started
  | .save draft => .saving draft .started

namespace Task

def call : Task → Call
  | .preparing _ => .prepare
  | .creating name description _ => .create name description
  | .saving draft _ => .save draft

/-- The next turn of a call. -/
def advance (s : Store) : Task → Task × Store
  | .preparing stage => (stage.advance prepare s).map .preparing id
  | .creating name description stage =>
    (stage.advance (fun s => s.create name description) s).map (.creating name description) id
  | .saving draft stage => (s.advance draft stage).map (.saving draft) id

/-- Why a call has failed. -/
def fault? : Task → Option Fault
  | .preparing (.failed fault) => some fault
  | .creating _ _ (.failed fault) => some fault
  | .saving _ (.failed fault) => some fault
  | _ => none

/-- The version that a call has returned. -/
def saved? : Task → Option SavedVersion
  | .saving _ (.saved saved) => some saved
  | _ => none

end Task

/-- The tables of a store, which are empty before they are made. -/
def held (s : Store) : Tables :=
  match s.connection with
  | .ready tables => tables
  | .closed | .empty => {}

inductive Row where
  | flow (row : FlowRow)
  | version (row : VersionRow)
  deriving DecidableEq

def Row.flow? : Row → Option FlowRow
  | .flow row => some row
  | .version _ => none

def Row.version? : Row → Option VersionRow
  | .flow _ => none
  | .version row => some row

/-- The rows that stand behind those of earlier tables. -/
def rowsSince (t t' : Tables) : List Row :=
  (t'.flows.drop t.flows.length).map .flow ++ (t'.versions.drop t.versions.length).map .version

structure Session where
  store : Store
  tasks : List Task
  /-- The rows that appeared, each with the call in whose turn it did. -/
  inserted : List (Nat × Row) := []

namespace Session

/-- The store was connected, and no call has had a turn. So many identifiers were drawn
before. -/
def opened (drawn : Nat) (calls : List Call) : Session where
  store := (Store.connect { drawn }).2
  tasks := calls.map Call.task

/-- One turn of a call. -/
def turn (s : Session) (call : Nat) : Session :=
  match s.tasks[call]? with
  | none => s
  | some task =>
    let out := task.advance s.store
    { store := out.2
      tasks := s.tasks.set call out.1
      inserted := s.inserted ++ (rowsSince s.store.held out.2.held).map (call, ·) }

/-- The turns of a schedule, which names a call for each of them. -/
def run (s : Session) (schedule : List Nat) : Session := schedule.foldl turn s

/-- The rows that appeared in the turns of a call. -/
def rowsOf (s : Session) (call : Nat) : List Row :=
  (s.inserted.filter (·.1 == call)).map Prod.snd

def fault? (s : Session) (call : Nat) : Option Fault := s.tasks[call]?.bind Task.fault?

def saved? (s : Session) (call : Nat) : Option SavedVersion := s.tasks[call]?.bind Task.saved?

end Session

/-! ## What a row holds -/

/-- A row holds a name and a description as columns of texts do. -/
structure FlowRow.Holds (row : FlowRow) (name description : Value) : Prop where
  name : ∃ cell, Cell.ofValue 2 name = .ok cell ∧ cell.text? = some row.name
  description : ∃ cell, Cell.ofValue 3 description = .ok cell ∧ cell.text? = row.description

/-- A row holds the flow, the text and the status of a draft as columns of texts do. -/
structure VersionRow.Holds (row : VersionRow) (d : Draft) : Prop where
  flow : ∃ cell, Cell.ofValue 1 d.flow = .ok cell ∧ cell.text? = some row.flow
  definition : ∃ cell, Cell.ofValue 4 d.definition = .ok cell ∧ cell.text? = some row.definition
  status : ∃ cell, Cell.ofValue 5 d.status = .ok cell ∧ cell.text? = row.status

/-- Tables have the flow of a draft. -/
def Known (t : Tables) (d : Draft) (flow : String) : Prop :=
  (∃ cell, Cell.ofValue 1 d.flow = .ok cell ∧ cell.text? = some flow) ∧
    ∃ row, t.flow? flow = some row

theorem Known.extend {t t' : Tables} {d : Draft} {flow : String} (known : Known t d flow)
    (ext : t.Extends t') : Known t' d flow := by
  obtain ⟨named, row, found⟩ := known
  exact ⟨named, row, ext.flow? found⟩

/-- What a call has added, as far as it has come. A save that knows its number has the flow,
and a number that is not beyond the next one. -/
def Recorded (t : Tables) (rows : List Row) : Task → Prop
  | .preparing _ => rows = []
  | .creating _ _ .started => rows = []
  | .creating _ _ (.failed _) => rows = []
  | .creating name description (.worked flow) | .creating name description (.returned flow) =>
    ∃ row, rows = [.flow row] ∧ row.id = flow.id ∧ row.Holds name description
  | .saving _ .started => rows = []
  | .saving _ (.failed _) => rows = []
  | .saving d .found => rows = [] ∧ ∃ flow, Known t d flow
  | .saving d (.numbered n) =>
    rows = [] ∧ ∃ flow, Known t d flow ∧ 1 ≤ n ∧ n ≤ (t.versionsOf flow).length + 1
  | .saving d (.added saved) | .saving d (.saved saved) =>
    ∃ row, rows = [.version row] ∧ row.id = saved.id ∧ row.version = saved.version ∧ row.Holds d

/-- What others add leaves a call where it is. -/
theorem Recorded.extend {t t' : Tables} {rows : List Row} {task : Task}
    (recorded : Recorded t rows task) (ext : t.Extends t') : Recorded t' rows task := by
  match task, recorded with
  | .preparing _, recorded => exact recorded
  | .creating _ _ .started, recorded => exact recorded
  | .creating _ _ (.failed _), recorded => exact recorded
  | .creating _ _ (.worked _), recorded => exact recorded
  | .creating _ _ (.returned _), recorded => exact recorded
  | .saving _ .started, recorded => exact recorded
  | .saving _ (.failed _), recorded => exact recorded
  | .saving _ .found, ⟨unchanged, flow, known⟩ => exact ⟨unchanged, flow, known.extend ext⟩
  | .saving _ (.numbered _), ⟨unchanged, flow, known, first, last⟩ =>
      have longer := (ext.versionsOf flow).length_le
      exact ⟨unchanged, flow, known.extend ext, first, by omega⟩
  | .saving _ (.added _), recorded => exact recorded
  | .saving _ (.saved _), recorded => exact recorded

/-- A call that has added a row is a call for this row, and has not failed. -/
theorem Recorded.cases {t : Tables} {rows : List Row} {task : Task}
    (recorded : Recorded t rows task) :
    rows = [] ∨ task.fault? = none ∧
      ((∃ row name description, rows = [.flow row] ∧ task.call = .create name description ∧
          row.Holds name description) ∨
        ∃ row d, rows = [.version row] ∧ task.call = .save d ∧ row.Holds d) := by
  match task, recorded with
  | .preparing _, recorded => exact .inl recorded
  | .creating _ _ .started, recorded => exact .inl recorded
  | .creating _ _ (.failed _), recorded => exact .inl recorded
  | .creating _ _ (.worked _), ⟨row, added, _, holds⟩ =>
      exact .inr ⟨rfl, .inl ⟨row, _, _, added, rfl, holds⟩⟩
  | .creating _ _ (.returned _), ⟨row, added, _, holds⟩ =>
      exact .inr ⟨rfl, .inl ⟨row, _, _, added, rfl, holds⟩⟩
  | .saving _ .started, recorded => exact .inl recorded
  | .saving _ (.failed _), recorded => exact .inl recorded
  | .saving _ .found, recorded => exact .inl recorded.1
  | .saving _ (.numbered _), recorded => exact .inl recorded.1
  | .saving _ (.added _), ⟨row, added, _, _, holds⟩ =>
      exact .inr ⟨rfl, .inr ⟨row, _, added, rfl, holds⟩⟩
  | .saving _ (.saved _), ⟨row, added, _, _, holds⟩ =>
      exact .inr ⟨rfl, .inr ⟨row, _, added, rfl, holds⟩⟩

/-! ## One turn on a store -/

/-- A store that was connected, with sound tables as soon as it has any. -/
structure Sound (s : Store) : Prop where
  connected : s.connection ≠ .closed
  held : s.held.Sound s.drawn

section

variable {s : Store} {t : Tables} {d : Draft} {flow id : String} {n : Nat} {rows : List Row}

@[simp] theorem held_ready {reachable : Bool} {drawn : Nat} :
    held { reachable, connection := .ready t, drawn } = t := rfl

@[simp] theorem rowsSince_self (t : Tables) : rowsSince t t = [] := by simp [rowsSince]

@[simp] theorem rowsSince_addFlow (t : Tables) (row : FlowRow) :
    rowsSince t (t.addFlow row) = [.flow row] := by
  simp [rowsSince, Tables.addFlow]

@[simp] theorem rowsSince_withVersion (t : Tables) (row : VersionRow) :
    rowsSince t (t.withVersion row) = [.version row] := by
  simp [rowsSince]

theorem tables_eq_ok {needed : String} (found : s.tables needed = .ok t) :
    s.connection = .ready t ∧ s.held = t := by
  rw [tables] at found
  split at found
  · contradiction
  · contradiction
  · next ready =>
      cases found
      exact ⟨ready, by rw [held, ready]⟩

/-- The store after drawing an identifier. -/
theorem held_draw (s : Store) : s.draw.2.held = s.held := rfl

theorem Sound.draw (sound : s.Sound) : s.draw.2.Sound :=
  ⟨sound.connected, sound.held.later (Nat.le_succ _)⟩

/-- What a turn of a call does: it keeps the store sound, adds rows only behind the others, and
leaves the call where the record has it. -/
structure Advances (s : Store) (rows : List Row) (task : Task) (out : Task × Store) : Prop where
  call : out.1.call = task.call
  sound : out.2.Sound
  extends_ : s.held.Extends out.2.held
  recorded : Recorded out.2.held (rows ++ rowsSince s.held out.2.held) out.1

/-- A turn that leaves the tables as they are. -/
theorem Advances.of_held {task : Task} {out : Task × Store} (call : out.1.call = task.call)
    (sound : out.2.Sound) (same : out.2.held = s.held) (recorded : Recorded s.held rows out.1) :
    Advances s rows task out where
  call := call
  sound := sound
  extends_ := same ▸ .refl _
  recorded := by rwa [same, rowsSince_self, List.append_nil]

/-! ### Saving -/

theorem exists_known_of_findFlow (found : s.findFlow d = .ok ()) :
    ∃ flow, Known s.held d flow := by
  obtain ⟨row?, looked, found⟩ := bind_eq_ok_iff.mp found
  obtain ⟨t, tables, looked⟩ := bind_eq_ok_iff.mp looked
  obtain ⟨cell, named, looked⟩ := bind_eq_ok_iff.mp looked
  obtain ⟨-, rfl⟩ := tables_eq_ok tables
  cases looked
  split at found
  · next row there =>
      obtain ⟨flow, text, listed⟩ := Option.bind_eq_some_iff.mp there
      exact ⟨flow, ⟨cell, named, text⟩, row, listed⟩
  · contradiction

theorem tables_of_known (known : Known s.held d flow) (needed : String) :
    s.tables needed = .ok s.held := by
  obtain ⟨-, row, found⟩ := known
  rw [held] at found
  rw [tables, held]
  split at found
  · next ready => rw [ready]
  · contradiction
  · contradiction

theorem findFlow_of_known (known : Known s.held d flow) : s.findFlow d = .ok () := by
  have ready := tables_of_known known "flows"
  obtain ⟨⟨cell, named, text⟩, row, found⟩ := known
  simp [findFlow, Store.flow?, ready, named, text, found, bind, Except.bind]

theorem flowText_of_known (known : Known t d flow) : flowText d = .ok flow := by
  obtain ⟨⟨cell, named, text⟩, -⟩ := known
  simp [flowText, named, text, bind, Except.bind]

/-- The number of a save is the one behind the last. -/
theorem nextVersion_of_known (sound : s.Sound) (known : Known s.held d flow) :
    s.nextVersion d = .ok ((s.held.versionsOf flow).length + 1) := by
  rw [nextVersion, tables_of_known known, ← sound.held.numbered.lastVersion_eq]
  simp only [bind, Except.bind, flowText_of_known known]

/-- A save adds a row that holds its draft, under a number that is behind the last one. -/
theorem addVersion_eq_ok (sound : s.Sound) (known : Known s.held d flow) (first : 1 ≤ n)
    (last : n ≤ (s.held.versionsOf flow).length + 1) (added : s.addVersion d id n = .ok t) :
    ∃ row : VersionRow, row.id = id ∧ row.flow = flow ∧ row.version = n ∧ row.Holds d ∧
      n = (s.held.versionsOf flow).length + 1 ∧ t = s.held.withVersion row := by
  obtain ⟨t', tables, added⟩ := bind_eq_ok_iff.mp added
  obtain ⟨text, named, added⟩ := bind_eq_ok_iff.mp added
  obtain ⟨row, read, added⟩ := bind_eq_ok_iff.mp added
  obtain ⟨-, rfl⟩ := tables_eq_ok tables
  rw [flowText_of_known known] at named
  cases named
  obtain ⟨definition, text, read⟩ := bind_eq_ok_iff.mp read
  obtain ⟨status, mark, read⟩ := bind_eq_ok_iff.mp read
  split at read
  · next written content =>
      cases read
      rw [Tables.addVersion] at added
      split at added
      · contradiction
      · next free =>
          cases added
          refine ⟨_, rfl, rfl, rfl, ⟨known.1, ⟨_, text, content⟩, ⟨_, mark, rfl⟩⟩, ?_, rfl⟩
          -- A lower number belongs to a row, which would have refused this one.
          by_contra behind
          have taken : n ≤ (s.held.versionsOf flow).length := by omega
          obtain ⟨row, member, number⟩ := sound.held.numbered.exists_version first taken
          obtain ⟨listed, own⟩ := Tables.mem_versionsOf.mp member
          exact free (List.any_eq_true.mpr ⟨row, listed, by simp [own, number]⟩)
  · contradiction

/-- Once tables are found, the store is open and stays so with other tables. -/
theorem Sound.of_tables {drawn : Nat} (sound : t.Sound drawn) :
    Sound { s with drawn, connection := .ready t } := ⟨by simp, sound⟩

theorem advances_saving (sound : s.Sound) {stage : Saving}
    (recorded : Recorded s.held rows (.saving d stage)) :
    Advances s rows (.saving d stage) (Task.advance s (.saving d stage)) := by
  cases stage with
  | started =>
      rw [Task.advance, advance]
      split
      · next found =>
          exact .of_held rfl sound rfl ⟨recorded, exists_known_of_findFlow found⟩
      · exact .of_held rfl sound rfl recorded
  | found =>
      obtain ⟨unchanged, flow, known⟩ := recorded
      rw [Task.advance, advance, nextVersion_of_known sound known]
      exact .of_held rfl sound rfl ⟨unchanged, flow, known, by omega, by omega⟩
  | numbered n =>
      obtain ⟨unchanged, flow, known, first, last⟩ := recorded
      simp only [Task.advance, advance, draw]
      split
      · next t added =>
          obtain ⟨row, named, rfl, number, holds, next, rfl⟩ :=
            addVersion_eq_ok sound known first last added
          obtain ⟨-, owner, owned⟩ := known
          refine ⟨rfl, .of_tables (sound.held.withVersion owned (number.trans next)),
            .withVersion _ row, ?_⟩
          refine ⟨row, ?_, named, number, holds⟩
          simp [unchanged]
      · exact .of_held rfl sound.draw s.held_draw unchanged
  | added saved => exact .of_held rfl sound rfl recorded
  | saved saved => exact .of_held rfl sound rfl recorded
  | failed fault => exact .of_held rfl sound rfl recorded

/-! ### Preparing and creating -/

theorem advances_preparing (sound : s.Sound) {stage : Working Unit}
    (recorded : Recorded s.held rows (.preparing stage)) :
    Advances s rows (.preparing stage) (Task.advance s (.preparing stage)) := by
  cases stage with
  | started =>
      rw [Task.advance, Working.advance, prepare]
      cases connection : s.connection with
      | closed => exact absurd connection sound.connected
      | empty =>
          have unmade : s.held = {} := by rw [held, connection]
          exact .of_held rfl (.of_tables (unmade ▸ sound.held)) unmade.symm recorded
      | ready t => exact .of_held rfl sound rfl recorded
  | worked => exact .of_held rfl sound rfl recorded
  | returned => exact .of_held rfl sound rfl recorded
  | failed fault => exact .of_held rfl sound rfl recorded

theorem holds_of_flowRow {name description : Value} {row : FlowRow}
    (read : flowRow id name description = .ok row) : row.id = id ∧ row.Holds name description := by
  obtain ⟨called, given, read⟩ := bind_eq_ok_iff.mp read
  obtain ⟨about, given', read⟩ := bind_eq_ok_iff.mp read
  split at read
  · next text content =>
      cases read
      exact ⟨rfl, ⟨called, given, content⟩, ⟨about, given', rfl⟩⟩
  · contradiction

theorem advances_creating (sound : s.Sound) {name description : Value}
    {stage : Working CreatedFlow}
    (recorded : Recorded s.held rows (.creating name description stage)) :
    Advances s rows (.creating name description stage)
      (Task.advance s (.creating name description stage)) := by
  cases stage with
  | started =>
      simp only [Task.advance, Working.advance, create, if_neg sound.connected, draw]
      cases found : s.tables "flows" with
      | error fault => exact .of_held rfl sound.draw s.held_draw recorded
      | ok t =>
          obtain ⟨-, rfl⟩ := tables_eq_ok found
          cases read : flowRow ("id-" ++ toString (s.drawn + 1)) name description with
          | error fault => exact .of_held rfl sound.draw s.held_draw recorded
          | ok row =>
              obtain ⟨named, holds⟩ := holds_of_flowRow read
              have same : row = ⟨Tables.identifier s.drawn, row.name, row.description⟩ := by
                rw [Tables.identifier, ← named]
              refine ⟨rfl, .of_tables ?_, .addFlow _ row, row, ?_, named, holds⟩
              · rw [same]
                exact sound.held.addFlow row.name row.description
              · obtain rfl : rows = [] := recorded
                simp
  | worked flow => exact .of_held rfl sound rfl recorded
  | returned flow => exact .of_held rfl sound rfl recorded
  | failed fault => exact .of_held rfl sound rfl recorded

/-- One turn of any call. -/
theorem advances_task (sound : s.Sound) {task : Task} (recorded : Recorded s.held rows task) :
    Advances s rows task (task.advance s) := by
  cases task with
  | preparing stage => exact advances_preparing sound recorded
  | creating name description stage => exact advances_creating sound recorded
  | saving draft stage => exact advances_saving sound recorded

end

/-! ## Sessions -/

/-- The rows of a store are those that appeared, in order, and every call has added what its
stage says. -/
structure Tracks (calls : List Call) (s : Session) : Prop where
  asked : s.tasks.map Task.call = calls
  sound : s.store.Sound
  flows : s.store.held.flows = s.inserted.filterMap (·.2.flow?)
  versions : s.store.held.versions = s.inserted.filterMap (·.2.version?)
  recorded : ∀ call task, s.tasks[call]? = some task →
    Recorded s.store.held (s.rowsOf call) task
  known : ∀ entry ∈ s.inserted, entry.1 < s.tasks.length

theorem tracks_opened (drawn : Nat) (calls : List Call) :
    Tracks calls (Session.opened drawn calls) where
  asked := by
    rw [Session.opened, List.map_map]
    exact (List.map_congr_left fun call _ => by cases call <;> rfl).trans (List.map_id calls)
  sound := ⟨Connection.noConfusion, Tables.sound_empty drawn⟩
  flows := rfl
  versions := rfl
  recorded call task here := by
    rw [Session.opened, List.getElem?_map, Option.map_eq_some_iff] at here
    obtain ⟨call, -, rfl⟩ := here
    cases call <;> rfl
  known entry member := absurd member List.not_mem_nil

section

variable {t t' : Tables}

theorem flows_of_extends (ext : t.Extends t') :
    t'.flows = t.flows ++ (rowsSince t t').filterMap Row.flow? := by
  have here : Row.flow? ∘ Row.flow = some := rfl
  have elsewhere : Row.flow? ∘ Row.version = fun _ => none := rfl
  rw [rowsSince, List.filterMap_append, List.filterMap_map, List.filterMap_map, here, elsewhere]
  simpa using (List.prefix_iff_eq_append.mp ext.flows).symm

theorem versions_of_extends (ext : t.Extends t') :
    t'.versions = t.versions ++ (rowsSince t t').filterMap Row.version? := by
  have here : Row.version? ∘ Row.version = some := rfl
  have elsewhere : Row.version? ∘ Row.flow = fun _ => none := rfl
  rw [rowsSince, List.filterMap_append, List.filterMap_map, List.filterMap_map, here, elsewhere]
  simpa using (List.prefix_iff_eq_append.mp ext.versions).symm

/-- Rows that appear in the turn of a call are those of this call. -/
theorem rowsOf_insert (store : Store) (tasks : List Task) (inserted : List (Nat × Row))
    (call other : Nat) (rows : List Row) :
    Session.rowsOf ⟨store, tasks, inserted ++ rows.map (call, ·)⟩ other =
      Session.rowsOf ⟨store, tasks, inserted⟩ other ++ if call = other then rows else [] := by
  rw [Session.rowsOf, List.filter_append, List.map_append, List.filter_map, List.map_map]
  by_cases own : call = other <;> simp [Session.rowsOf, Function.comp_def, own]

end

namespace Tracks

variable {calls : List Call} {s : Session}

theorem turn (tracks : Tracks calls s) (call : Nat) : Tracks calls (s.turn call) := by
  rw [Session.turn]
  cases here : s.tasks[call]? with
  | none => exact tracks
  | some task =>
      obtain ⟨bound, found⟩ := List.getElem?_eq_some_iff.mp here
      obtain ⟨same, sound, ext, recorded⟩ :=
        advances_task tracks.sound (tracks.recorded call task here)
      refine ⟨?_, sound, ?_, ?_, ?_, ?_⟩
      · rw [List.map_set, same, ← found, ← List.map_set, List.set_getElem_self]
        exact tracks.asked
      · simp only [flows_of_extends ext, tracks.flows, List.filterMap_append, List.filterMap_map]
        rfl
      · simp only [versions_of_extends ext, tracks.versions, List.filterMap_append,
          List.filterMap_map]
        rfl
      · intro other task' there
        rw [rowsOf_insert]
        by_cases own : call = other
        · subst own
          rw [List.getElem?_set_self bound] at there
          cases there
          rw [if_pos rfl]
          exact recorded
        · rw [List.getElem?_set_ne own] at there
          rw [if_neg own, List.append_nil]
          exact (tracks.recorded other task' there).extend ext
      · intro entry member
        rw [List.length_set]
        obtain old | new := List.mem_append.mp member
        · exact tracks.known entry old
        · obtain ⟨row, -, rfl⟩ := List.mem_map.mp new
          exact bound

theorem run (tracks : Tracks calls s) (schedule : List Nat) : Tracks calls (s.run schedule) := by
  induction schedule generalizing s with
  | nil => exact tracks
  | cons call rest ih => exact ih (tracks.turn call)

end Tracks

/-! ## Turns of one call among others -/

namespace Session

variable {s : Session} {call other : Nat} {task : Task}

theorem run_append (s : Session) (first rest : List Nat) :
    s.run (first ++ rest) = (s.run first).run rest :=
  List.foldl_append

theorem run_cons (s : Session) (call : Nat) (rest : List Nat) :
    s.run (call :: rest) = (s.turn call).run rest := rfl

theorem task_turn (here : s.tasks[call]? = some task) :
    (s.turn call).tasks[call]? = some (task.advance s.store).1 := by
  obtain ⟨bound, -⟩ := List.getElem?_eq_some_iff.mp here
  rw [turn, here]
  exact List.getElem?_set_self bound

theorem store_turn (here : s.tasks[call]? = some task) :
    (s.turn call).store = (task.advance s.store).2 := by
  rw [turn, here]

theorem task_turn_of_ne (apart : other ≠ call) :
    (s.turn other).tasks[call]? = s.tasks[call]? := by
  rw [turn]
  split
  · rfl
  · exact List.getElem?_set_ne apart

/-- A call stays where it is as long as others take turns. -/
theorem task_run_of_not_mem {schedule : List Nat} (apart : call ∉ schedule) :
    (s.run schedule).tasks[call]? = s.tasks[call]? := by
  induction schedule generalizing s with
  | nil => rfl
  | cons other rest ih =>
      rw [List.mem_cons, not_or] at apart
      rw [run_cons, ih apart.2, task_turn_of_ne (Ne.symm apart.1)]

/-- So many turns of a call, one right after the other. -/
def turns : Nat → Task × Store → Task × Store
  | 0, out => out
  | n + 1, out => turns n (out.1.advance out.2)

theorem store_run_replicate (here : s.tasks[call]? = some task) (n : Nat) :
    (s.run (List.replicate n call)).store = (turns n (task, s.store)).2 := by
  induction n generalizing s task with
  | zero => rfl
  | succ n ih => rw [List.replicate_succ, run_cons, ih (task_turn here), store_turn here, turns]

/-- A call that takes all its turns at once does to the store what its operation does. -/
theorem store_run_alone {c : Call} (here : s.tasks[call]? = some c.task) :
    (s.run (List.replicate 4 call)).store =
      match c with
      | .prepare => s.store.prepare.2
      | .create name description => (s.store.create name description).2
      | .save draft => (s.store.save draft).2 := by
  rw [store_run_replicate here]
  cases c with
  | prepare =>
      rcases out : s.store.prepare with ⟨_ | _, s'⟩ <;>
        simp [turns, Call.task, Task.advance, Working.advance, out]
  | create name description =>
      rcases out : s.store.create name description with ⟨_ | _, s'⟩ <;>
        simp [turns, Call.task, Task.advance, Working.advance, out]
  | save draft =>
      change (advances draft 4 (.started, s.store)).2 = (s.store.save draft).2
      rw [save]
      split <;> simp_all

end Session

end FlowDiagram.Store
