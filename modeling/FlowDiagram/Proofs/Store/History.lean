import FlowDiagram.Number.Reading
import FlowDiagram.Proofs.Store.Tables
import FlowDiagram.Store.Saving
/-!
# A store is the history of its saves

Operations run one after the other on a store that was connected and prepared. What each of
them answers is determined by the answers before it: by the flows that were created, and for
each flow by the texts that were saved in it, in order. `Answers` states this for every kind of
operation, and `answers_of_history` proves it after any sequence of operations.

The induction carries that the tables of the store are the rows that the history adds
(`Kept`), that versions count up, and that identifiers were drawn before. `Kept.step` is the
step of it and `Kept.run` follows a whole run.
-/

namespace FlowDiagram.Store

open Document

/-! ## Operations and what they answer -/

/-- An operation whose arguments are texts. A version is any number of 64 bits. -/
inductive Operation where
  | prepare
  | create (name : String) (description : Option String)
  | save (flow text status : String)
  | find (id : String)
  | read (id : String) (version : { n : Int // fitsWord n = true })
  | list (id : String)

/-- What an operation gives. -/
inductive Answer where
  | prepared
  | created (flow : CreatedFlow)
  | saved (version : SavedVersion)
  | found (row : Option FlowRow)
  | read (text : Option String)
  | listed (rows : List VersionRow)

/-- The outcome of an operation of any kind. -/
def Operation.run (s : Store) : Operation → Outcome Answer
  | .prepare => (s.prepare.1.map fun _ => .prepared, s.prepare.2)
  | .create name description =>
    let outcome := s.create (.str name) (.optional description)
    (outcome.1.map .created, outcome.2)
  | .save flow text status =>
    let outcome := s.save ⟨.str flow, .str text, .str status⟩
    (outcome.1.map .saved, outcome.2)
  | .find id => ((s.flow? (.str id)).map .found, s)
  | .read id version => ((s.definition? (.str id) (.int version)).map .read, s)
  | .list id => ((s.versions (.str id)).map .listed, s)

/-- An operation with its answer. -/
structure Entry where
  operation : Operation
  answer : Except Fault Answer

/-- The operations that were run on a store with their answers, the latest last. -/
def history (s : Store) : List Operation → List Entry
  | [] => []
  | op :: rest => ⟨op, (op.run s).1⟩ :: history (op.run s).2 rest

/-- The store after some operations. -/
def after (s : Store) (ops : List Operation) : Store := ops.foldl (fun s op => (op.run s).2) s

/-- A store that was just connected and prepared. So many identifiers were drawn before. -/
def opened (drawn : Nat) : Store := (Store.connect { drawn }).2.prepare.2

/-! ## What a history says -/

/-- The flow that an entry creates. -/
def Entry.flowRow? : Entry → Option FlowRow
  | ⟨.create name description, .ok (.created flow)⟩ => some ⟨flow.id, name, description⟩
  | _ => none

/-- The text and the status that an entry saves in a flow. -/
def Entry.savedIn? (flow : String) : Entry → Option (String × String)
  | ⟨.save f text status, .ok (.saved _)⟩ => if f = flow then some (text, status) else none
  | _ => none

/-- The flow with an identifier, if it was created. -/
def createdFlow? (h : List Entry) (id : String) : Option FlowRow :=
  (h.filterMap Entry.flowRow?).find? (·.id == id)

/-- The texts that were saved in a flow with their statuses, in order. -/
def savedIn (h : List Entry) (flow : String) : List (String × String) :=
  h.filterMap (Entry.savedIn? flow)

/-- The text that was saved as a version. Versions count from one. -/
def textOf (h : List Entry) (flow : String) (version : Int) : Option String :=
  if 1 ≤ version then ((savedIn h flow)[(version - 1).toNat]?).map Prod.fst else none

/-- The versions of a flow as they are listed: numbers from one on with their statuses. -/
def listing (h : List Entry) (flow : String) : List (String × Nat × Option String) :=
  (savedIn h flow).mapIdx fun i saved => (flow, i + 1, some saved.2)

/-- The answer that a history gives to an operation. -/
def Answers (h : List Entry) : Operation → Except Fault Answer → Prop
  | .prepare, answer => answer = .ok .prepared
  | .create name description, answer => ∃ id, createdFlow? h id = none ∧
      answer = .ok (.created ⟨id, .str name, .optional description⟩)
  | .save flow _ status, answer =>
    match createdFlow? h flow with
    | some _ => ∃ id,
        answer = .ok (.saved ⟨id, .str flow, (savedIn h flow).length + 1, .str status⟩)
    | none => answer = .error (.flowNotFound flow)
  | .find id, answer => answer = .ok (.found (createdFlow? h id))
  | .read id version, answer => answer = .ok (.read (textOf h id version))
  | .list id, answer => ∃ rows, answer = .ok (.listed rows) ∧
      rows.map (fun row => (row.flow, row.version, row.status)) = listing h id

/-- An entry is about a flow: it creates the flow or saves in it. -/
def Entry.IsAbout (flow : String) : Entry → Prop
  | ⟨.create _ _, .ok (.created created)⟩ => created.id = flow
  | ⟨.save f _ _, _⟩ => f = flow
  | _ => False

/-- Two stores say the same about a flow and its versions. -/
structure SameFlow (flow : String) (s s' : Store) : Prop where
  row : s'.flow? (.str flow) = s.flow? (.str flow)
  versions : s'.versions (.str flow) = s.versions (.str flow)
  texts : ∀ version, s'.definition? (.str flow) version = s.definition? (.str flow) version

theorem SameFlow.refl (flow : String) (s : Store) : SameFlow flow s s := ⟨rfl, rfl, fun _ => rfl⟩

/-! ## Operations on a store with tables -/

section

variable {s : Store} {t : Tables} {flow text status name : String} {description : Option String}

theorem tables_of_ready (ready : s.connection = .ready t) (needed : String) :
    s.tables needed = .ok t := by
  rw [tables, ready]

theorem prepare_of_ready (ready : s.connection = .ready t) : s.prepare = (.ok (), s) := by
  rw [prepare, ready]

theorem flow?_of_ready (ready : s.connection = .ready t) (id : String) :
    s.flow? (.str id) = .ok (t.flow? id) := by
  rw [flow?, tables_of_ready ready]
  rfl

theorem versions_of_ready (ready : s.connection = .ready t) (flow : String) :
    s.versions (.str flow) = .ok (t.versionsOf flow) := by
  rw [versions, tables_of_ready ready]
  rfl

theorem definition?_of_ready (ready : s.connection = .ready t) (flow : String) (version : Value) :
    s.definition? (.str flow) version = (Cell.ofValue 2 version).map fun cell =>
      ((t.versionsOf flow).find? fun row => cell.isVersion row.version).map
        VersionRow.definition := by
  rw [definition?, tables_of_ready ready]
  cases Cell.ofValue 2 version <;> rfl

/-- The identifier that is drawn next. -/
def nextId (s : Store) : String := Tables.identifier s.drawn

theorem SameFlow.of_ready {s' : Store} {t' : Tables} (ready : s.connection = .ready t)
    (ready' : s'.connection = .ready t') (row : t'.flow? flow = t.flow? flow)
    (versions : t'.versionsOf flow = t.versionsOf flow) : SameFlow flow s s' where
  row := by rw [flow?_of_ready ready, flow?_of_ready ready', row]
  versions := by rw [versions_of_ready ready, versions_of_ready ready', versions]
  texts version := by rw [definition?_of_ready ready, definition?_of_ready ready', versions]

theorem create_of_ready (ready : s.connection = .ready t) :
    s.create (.str name) (.optional description) =
      (.ok ⟨s.nextId, .str name, .optional description⟩,
        { s with
          drawn := s.drawn + 1
          connection := .ready (t.addFlow ⟨s.nextId, name, description⟩) }) := by
  have row : flowRow s.nextId (.str name) (.optional description) =
      .ok ⟨s.nextId, name, description⟩ := by
    cases description <;> rfl
  have open_ : s.connection ≠ .closed := by simp [ready]
  rw [create, if_neg open_]
  simp only [tables_of_ready ready, draw]
  rw [nextId, Tables.identifier] at row
  rw [row]
  rfl

theorem save_of_unknown (ready : s.connection = .ready t) (unknown : t.flow? flow = none) :
    s.save ⟨.str flow, .str text, .str status⟩ = (.error (.flowNotFound flow), s) := by
  have lost : s.findFlow ⟨.str flow, .str text, .str status⟩ = .error (.flowNotFound flow) := by
    rw [findFlow, flow?_of_ready ready, unknown]
    rfl
  simp only [save, advances, advance, lost]

/-- The row that a save adds. -/
def savedRow (s : Store) (t : Tables) (flow text status : String) : VersionRow :=
  ⟨s.nextId, flow, (t.versionsOf flow).length + 1, text, some status⟩

theorem save_of_known (ready : s.connection = .ready t) (numbered : t.Numbered) {row : FlowRow}
    (known : t.flow? flow = some row) :
    s.save ⟨.str flow, .str text, .str status⟩ =
      (.ok ⟨s.nextId, .str flow, (t.versionsOf flow).length + 1, .str status⟩,
        { s with
          drawn := s.drawn + 1
          connection := .ready (t.withVersion (s.savedRow t flow text status)) }) := by
  have found : s.findFlow ⟨.str flow, .str text, .str status⟩ = .ok () := by
    rw [findFlow, flow?_of_ready ready, known]
    rfl
  have next : s.nextVersion ⟨.str flow, .str text, .str status⟩ =
      .ok ((t.versionsOf flow).length + 1) := by
    rw [nextVersion, tables_of_ready ready, ← numbered.lastVersion_eq]
    rfl
  have added : s.addVersion ⟨.str flow, .str text, .str status⟩ s.nextId
      ((t.versionsOf flow).length + 1) = .ok (t.withVersion (s.savedRow t flow text status)) := by
    rw [addVersion, tables_of_ready ready]
    exact numbered.addVersion_eq rfl
  rw [nextId, Tables.identifier] at added
  simp only [save, advances, advance, found, next, draw, added]
  rfl

end

/-! ## The tables of a history -/

/-- The row that an entry adds to the versions. -/
def Entry.versionRow? : Entry → Option VersionRow
  | ⟨.save flow text status, .ok (.saved version)⟩ =>
    some ⟨version.id, flow, version.version, text, some status⟩
  | _ => none

/-- The rows that a history adds. -/
def tablesOf (h : List Entry) : Tables :=
  ⟨h.filterMap Entry.flowRow?, h.filterMap Entry.versionRow?⟩

variable {h : List Entry} {e : Entry} {s : Store} {id flow : String}

theorem tablesOf_concat_of_none (noFlow : e.flowRow? = none) (noVersion : e.versionRow? = none) :
    tablesOf (h ++ [e]) = tablesOf h := by
  simp [tablesOf, noFlow, noVersion]

theorem tablesOf_concat_of_flowRow {row : FlowRow} (creates : e.flowRow? = some row)
    (noVersion : e.versionRow? = none) :
    tablesOf (h ++ [e]) = (tablesOf h).addFlow row := by
  simp [tablesOf, creates, noVersion, Tables.addFlow]

theorem tablesOf_concat_of_versionRow {row : VersionRow} (noFlow : e.flowRow? = none)
    (saves : e.versionRow? = some row) :
    tablesOf (h ++ [e]) = (tablesOf h).withVersion row := by
  simp [tablesOf, noFlow, saves, Tables.withVersion]

theorem savedIn?_of_versionRow? (e : Entry) (flow : String) :
    (e.savedIn? flow).map (fun saved => (saved.1, some saved.2)) =
      (e.versionRow?.filter (·.flow == flow)).map fun row => (row.definition, row.status) := by
  obtain ⟨op, answer⟩ := e
  cases op with
  | save f text status =>
      obtain _ | answer := answer
      · rfl
      · cases answer with
        | saved version =>
            by_cases own : f = flow <;>
              simp [Entry.savedIn?, Entry.versionRow?, Option.filter_some, own]
        | _ => rfl
  | _ => rfl

/-- The rows of a flow hold the texts that were saved in it. -/
theorem map_versionsOf (h : List Entry) (flow : String) :
    ((tablesOf h).versionsOf flow).map (fun row => (row.definition, row.status)) =
      (savedIn h flow).map fun saved => (saved.1, some saved.2) := by
  rw [savedIn, List.map_filterMap, Tables.versionsOf, tablesOf, List.filter_filterMap,
    List.map_filterMap]
  exact List.filterMap_congr fun e _ => (savedIn?_of_versionRow? e flow).symm

theorem length_versionsOf (h : List Entry) (flow : String) :
    ((tablesOf h).versionsOf flow).length = (savedIn h flow).length := by
  simpa using congrArg List.length (map_versionsOf h flow)

/-- A store holds what a history adds. -/
structure Kept (h : List Entry) (s : Store) : Prop where
  ready : s.connection = .ready (tablesOf h)
  sound : (tablesOf h).Sound s.drawn

theorem kept_opened (drawn : Nat) : Kept [] (opened drawn) := ⟨rfl, Tables.sound_empty drawn⟩

namespace Kept

/-- What a store answers is what its history says. -/
theorem answers (kept : Kept h s) (op : Operation) : Answers h op (op.run s).1 := by
  cases op with
  | prepare => rw [Operation.run, prepare_of_ready kept.ready]; rfl
  | create name description =>
      rw [Operation.run, create_of_ready kept.ready]
      exact ⟨s.nextId, kept.sound.fresh, rfl⟩
  | save flow text status =>
      rw [Answers]
      split
      · next row known =>
          rw [Operation.run, save_of_known kept.ready kept.sound.numbered known, length_versionsOf]
          exact ⟨s.nextId, rfl⟩
      · next unknown =>
          rw [Operation.run, save_of_unknown kept.ready unknown]
          rfl
  | find id => rw [Operation.run, flow?_of_ready kept.ready]; rfl
  | read id version =>
      obtain ⟨v, fits⟩ := version
      have cell : Cell.ofValue 2 (.int v) = .ok (.int v) := if_pos fits
      have text : (((tablesOf h).versionsOf id).find? fun row =>
          (Cell.int v).isVersion row.version).map VersionRow.definition = textOf h id v := by
        rw [kept.sound.numbered.find?_eq, textOf]
        split
        · have same := congrArg (·[(v - 1).toNat]?) (map_versionsOf h id)
          simp only [List.getElem?_map] at same
          simpa [Function.comp_def] using congrArg (Option.map Prod.fst) same
        · rfl
      rw [Operation.run, definition?_of_ready kept.ready]
      simp only [cell, Except.map, text]
      rfl
  | list id =>
      rw [Operation.run, versions_of_ready kept.ready]
      refine ⟨_, rfl, ?_⟩
      have statuses := congrArg (List.map Prod.snd) (map_versionsOf h id)
      rw [List.map_map, List.map_map] at statuses
      apply List.ext_getElem
      · simp [listing, length_versionsOf]
      · intro i bound bound'
        rw [List.length_map] at bound
        have own := Tables.flow_of_mem_versionsOf (List.getElem_mem bound)
        have place : i < (savedIn h id).length := length_versionsOf h id ▸ bound
        have status : ((tablesOf h).versionsOf id)[i].status = some ((savedIn h id)[i].2) := by
          simpa [bound, place] using congrArg (·[i]?) statuses
        simp [listing, own, kept.sound.numbered.version_getElem, status]

/-! ### One operation -/

theorem concat_of_none (kept : Kept h s) (noFlow : e.flowRow? = none)
    (noVersion : e.versionRow? = none) : Kept (h ++ [e]) s := by
  have same := tablesOf_concat_of_none (h := h) noFlow noVersion
  exact ⟨same ▸ kept.ready, same ▸ kept.sound⟩

theorem concat_of_flowRow (kept : Kept h s) {name : String} {description : Option String}
    (creates : e.flowRow? = some ⟨s.nextId, name, description⟩) (noVersion : e.versionRow? = none) :
    Kept (h ++ [e])
      { s with
        drawn := s.drawn + 1
        connection := .ready ((tablesOf h).addFlow ⟨s.nextId, name, description⟩) } := by
  have added := tablesOf_concat_of_flowRow (h := h) creates noVersion
  exact ⟨by rw [added], added ▸ kept.sound.addFlow name description⟩

theorem concat_of_savedRow (kept : Kept h s) {row : FlowRow} {text status : String}
    (known : createdFlow? h flow = some row) (noFlow : e.flowRow? = none)
    (saves : e.versionRow? = some (s.savedRow (tablesOf h) flow text status)) :
    Kept (h ++ [e])
      { s with
        drawn := s.drawn + 1
        connection :=
          .ready ((tablesOf h).withVersion (s.savedRow (tablesOf h) flow text status)) } := by
  have added := tablesOf_concat_of_versionRow (h := h) noFlow saves
  have owned : (tablesOf h).flow? (s.savedRow (tablesOf h) flow text status).flow = some row :=
    known
  constructor
  · rw [added]
  · rw [added]
    exact kept.sound.withVersion owned rfl

/-- After an operation the store holds what the longer history adds. -/
theorem step (kept : Kept h s) (op : Operation) :
    Kept (h ++ [⟨op, (op.run s).1⟩]) (op.run s).2 := by
  cases op with
  | prepare =>
      rw [Operation.run, prepare_of_ready kept.ready]
      exact kept.concat_of_none rfl rfl
  | create name description =>
      rw [Operation.run, create_of_ready kept.ready]
      exact kept.concat_of_flowRow rfl rfl
  | save flow text status =>
      cases known : createdFlow? h flow with
      | some row =>
          rw [Operation.run, save_of_known kept.ready kept.sound.numbered known]
          exact kept.concat_of_savedRow known rfl rfl
      | none =>
          rw [Operation.run, save_of_unknown kept.ready known]
          exact kept.concat_of_none rfl rfl
  | find id => exact kept.concat_of_none rfl rfl
  | read id version => exact kept.concat_of_none rfl rfl
  | list id => exact kept.concat_of_none rfl rfl

theorem run (kept : Kept h s) (ops : List Operation) : Kept (h ++ history s ops) (after s ops) := by
  induction ops generalizing h s with
  | nil =>
      rw [history, List.append_nil]
      exact kept
  | cons op rest ih =>
      have later := ih (kept.step op)
      rw [List.append_assoc] at later
      exact later

/-- An operation that fails changes nothing. -/
theorem run_of_error (kept : Kept h s) {op : Operation} {fault : Fault}
    (fails : (op.run s).1 = .error fault) : (op.run s).2 = s := by
  cases op with
  | prepare => rw [Operation.run, prepare_of_ready kept.ready]
  | create name description =>
      rw [Operation.run, create_of_ready kept.ready] at fails
      contradiction
  | save flow text status =>
      cases known : createdFlow? h flow with
      | some row =>
          rw [Operation.run, save_of_known kept.ready kept.sound.numbered known] at fails
          contradiction
      | none => rw [Operation.run, save_of_unknown kept.ready known]
  | find id => rfl
  | read id version => rfl
  | list id => rfl

/-- An operation says nothing new about a flow that it is not about. -/
theorem sameFlow (kept : Kept h s) {op : Operation}
    (other : ¬Entry.IsAbout flow ⟨op, (op.run s).1⟩) : SameFlow flow s (op.run s).2 := by
  cases op with
  | prepare =>
      rw [Operation.run, prepare_of_ready kept.ready]
      exact .refl flow s
  | create name description =>
      rw [Operation.run, create_of_ready kept.ready] at other ⊢
      have apart : s.nextId ≠ flow := other
      refine .of_ready kept.ready rfl ?_ rfl
      rw [Tables.flow?, Tables.addFlow, List.find?_append]
      simp [apart, Tables.flow?]
  | save f text status =>
      have apart : f ≠ flow := other
      cases known : createdFlow? h f with
      | some row =>
          rw [Operation.run, save_of_known kept.ready kept.sound.numbered known]
          refine .of_ready kept.ready rfl rfl ?_
          rw [Tables.versionsOf_withVersion, savedRow, if_neg apart, List.append_nil]
      | none =>
          rw [Operation.run, save_of_unknown kept.ready known]
          exact .refl flow s
  | find id => exact .refl flow s
  | read id version => exact .refl flow s
  | list id => exact .refl flow s

end Kept

/-! ## Every history -/

theorem history_append (s : Store) (ops more : List Operation) :
    history s (ops ++ more) = history s ops ++ history (after s ops) more := by
  induction ops generalizing s with
  | nil => rfl
  | cons op rest ih => exact congrArg (_ :: ·) (ih _)

theorem length_history (s : Store) (ops : List Operation) :
    (history s ops).length = ops.length := by
  induction ops generalizing s with
  | nil => rfl
  | cons op rest ih => exact congrArg (· + 1) (ih _)

/-- Nothing is saved in a flow that does not exist. -/
theorem savedIn_of_unknown (kept : Kept h s) (unknown : createdFlow? h flow = none) :
    savedIn h flow = [] := by
  have none_listed : (tablesOf h).versionsOf flow = [] := by
    apply List.filter_eq_nil_iff.mpr
    intro row member own
    obtain ⟨flow, found⟩ := kept.sound.known row member
    have lost : (tablesOf h).flow? row.flow = none := eq_of_beq own ▸ unknown
    rw [lost] at found
    contradiction
  simpa [none_listed] using (map_versionsOf h flow).symm

/-- Whatever was run on a store before, each operation answers what the history says: a save in
a flow that exists gets the number behind those of the earlier saves, a version is the text
that was saved as it for ever, and the versions are listed from one on. What fails changes
nothing, and no operation says anything new about another flow. -/
theorem answers_of_history (drawn : Nat) (ops : List Operation) :
    let s := after (opened drawn) ops
    let h := history (opened drawn) ops
    (∀ op : Operation, Answers h op (op.run s).1) ∧
      (∀ (op : Operation) (fault : Fault), (op.run s).1 = .error fault → (op.run s).2 = s) ∧
      (∀ (op : Operation) (flow : String), ¬Entry.IsAbout flow ⟨op, (op.run s).1⟩ →
        SameFlow flow s (op.run s).2) ∧
      (∀ flow, createdFlow? h flow = none → savedIn h flow = []) ∧
      ∀ more flow, savedIn h flow <+: savedIn (history (opened drawn) (ops ++ more)) flow := by
  intro s h
  have kept : Kept h s := (kept_opened drawn).run ops
  refine ⟨kept.answers, fun _ _ => kept.run_of_error, fun _ _ => kept.sameFlow,
    fun _ => savedIn_of_unknown kept, ?_⟩
  intro more flow
  rw [history_append, savedIn, savedIn, List.filterMap_append]
  exact List.prefix_append _ _

/-- Two flows, one with two versions, and a save in a flow that does not exist. -/
def drafting : List Operation :=
  [.create "review" none, .save "id-1" "first" "draft", .create "ship" (some "of parcels"),
    .save "id-9" "lost" "draft", .prepare, .save "id-1" "second" "final"]

/-- The first version is read as it was saved, the versions are listed, a save in a lost flow
changes nothing and a save in the second flow nothing of the first. -/
theorem answers_of_history_drafting :
    let s := after (opened 0) drafting
    let lost := Operation.save "id-9" "lost" "draft"
    let third := Operation.save "id-3" "third" "draft"
    ((Operation.read "id-1" ⟨1, by decide⟩).run s).1 = .ok (.read (some "first")) ∧
      (∃ rows, ((Operation.list "id-1").run s).1 = .ok (.listed rows) ∧
        rows.map (fun row => (row.flow, row.version, row.status)) =
          [("id-1", 1, some "draft"), ("id-1", 2, some "final")]) ∧
      ((lost.run s).1 = .error (.flowNotFound "id-9") ∧ (lost.run s).2 = s) ∧
      ((third.run s).1 = .ok (.saved ⟨"id-5", .str "id-3", 1, .str "draft"⟩) ∧
        SameFlow "id-1" s (third.run s).2) ∧
      savedIn (history (opened 0) drafting) "id-9" = [] := by
  obtain ⟨answers, failed, other, unsaved, -⟩ := answers_of_history 0 drafting
  have lost := answers (.save "id-9" "lost" "draft")
  have apart : "id-3" ≠ "id-1" := by decide
  exact ⟨answers (.read "id-1" ⟨1, by decide⟩), answers (.list "id-1"), ⟨lost, failed _ _ lost⟩,
    ⟨rfl, other (.save "id-3" "third" "draft") "id-1" apart⟩, unsaved "id-9" rfl⟩

end FlowDiagram.Store
