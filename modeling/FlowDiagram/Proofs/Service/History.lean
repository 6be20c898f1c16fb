import FlowDiagram.Proofs.Service.Paths
import FlowDiagram.Proofs.Store.History
/-!
# What a service keeps

A service answers requests one after the other. Only two kinds of request reach its store, those
that create a flow and those that save a version; all others leave the service as it is
(`handle_service`). So the store of a service is the store after the operations that its requests
stand for, and its tables hold what was saved (`kept_after`).

An exchange saves a version if the reply says so: it has the status 200 and names the version.
`exists_saves_iff` proves that these are exactly the rows of the store, and `definition?_iff` that
exactly these versions are found.
-/

namespace FlowDiagram.Service

open Document

/-! ## Requests that change the store -/

/-- What a request asks for. -/
def asked? (r : Request) : Option Endpoint :=
  (endpoints (settled r.target.path.length r.target).parts).lookup r.method

/-- What a request does to the store, if it does anything. -/
def operation? (r : Request) : Option Store.Operation :=
  match asked? r with
  | some .createFlow =>
    match readBody FlowRequest.ofFields r.body with
    | .ok q => some (.create q.name q.description)
    | .error _ => none
  | some (.saveVersion flow) =>
    match readBody VersionRequest.ofFields r.body with
    | .ok q => some (.save flow q.definition q.status)
    | .error _ => none
  | _ => none

/-- The store after a request. -/
def storeAfter (store : Store) (r : Request) : Store :=
  match operation? r with
  | some op => (op.run store).2
  | none => store

/-- A request with its reply. -/
structure Exchange where
  request : Request
  reply : Reply

/-- The requests to a service with its replies, in order. -/
def exchanges (s : Service) : List Request → List Exchange
  | [] => []
  | r :: rest => ⟨r, (s.handle r).1⟩ :: exchanges (s.handle r).2 rest

/-- The service after some requests. -/
def after (s : Service) (rs : List Request) : Service := rs.foldl (fun s r => (s.handle r).2) s

/-- A text was saved as a version of a flow: the flow was asked to save it, and the reply names
the version. -/
structure Exchange.Saves (e : Exchange) (flow : String) (version : Int) (text : String) :
    Prop where
  asked : asked? e.request = some (.saveVersion flow)
  sent : ∃ status, readBody VersionRequest.ofFields e.request.body = .ok ⟨text, status⟩
  replied : ∃ document, e.reply = .ok ⟨200, .document document⟩ ∧
    document.get? "version" = some (.int version)

section

variable {s : Service} {r : Request} {flow text status : String} {version : Int}

theorem handle_of_asked {endpoint : Endpoint} (asked : asked? r = some endpoint) :
    s.handle r =
      s.respond { r with target := settled r.target.path.length r.target } endpoint := by
  rw [asked?] at asked
  rw [handle, dispatch]
  dsimp only
  rw [asked]

theorem handle_of_not_asked (lost : asked? r = none) : (s.handle r).2 = s := by
  rw [asked?] at lost
  rw [handle, dispatch]
  dsimp only
  rw [lost]

/-- Requests change nothing but the store. -/
theorem handle_service (s : Service) (r : Request) :
    (s.handle r).2 = { s with store := storeAfter s.store r } := by
  cases asked : asked? r with
  | none => rw [handle_of_not_asked asked, storeAfter, operation?, asked]
  | some endpoint =>
      rw [handle_of_asked asked, storeAfter, operation?, asked]
      cases endpoint with
      | createFlow =>
          dsimp only [respond]
          rw [createFlow]
          cases readBody FlowRequest.ofFields r.body with
          | error fault => rfl
          | ok q =>
              dsimp only [Store.Operation.run]
              obtain ⟨outcome, store⟩ := s.store.create (.str q.name) (.optional q.description)
              cases outcome <;> rfl
      | saveVersion flow =>
          dsimp only [respond]
          rw [saveVersion]
          cases readBody VersionRequest.ofFields r.body with
          | error fault => rfl
          | ok q =>
              dsimp only [Store.Operation.run]
              obtain ⟨outcome, store⟩ := s.store.save ⟨.str flow, .str q.definition, .str q.status⟩
              cases outcome <;> rfl
      | _ => rfl

theorem after_eq (s : Service) (rs : List Request) :
    after s rs = { s with store := s.store.after (rs.filterMap operation?) } := by
  induction rs generalizing s with
  | nil => rfl
  | cons r rest ih =>
      rw [after, List.foldl_cons, ← after, ih, handle_service, storeAfter, List.filterMap_cons]
      cases operation? r <;> rfl

/-! ## Exchanges that save -/

theorem reply_saved (id flow status : String) (version : Nat) :
    let saved : Store.SavedVersion := ⟨id, .str flow, version, .str status⟩
    reply 200 saved.toValue = .ok ⟨200, .document saved.toValue⟩ := rfl

/-- The reply to a request that saves a version. -/
theorem handle_of_sent (asked : asked? r = some (.saveVersion flow))
    (sent : readBody VersionRequest.ofFields r.body = .ok ⟨text, status⟩) :
    (s.handle r).1 =
      match (s.store.save ⟨.str flow, .str text, .str status⟩).1 with
      | .ok saved => reply 200 saved.toValue
      | .error fault => storeFailure fault := by
  rw [handle_of_asked asked]
  dsimp only [respond]
  rw [saveVersion, sent]
  dsimp only
  obtain ⟨outcome, store⟩ := s.store.save ⟨.str flow, .str text, .str status⟩
  cases outcome <;> rfl

theorem operation?_of_sent (asked : asked? r = some (.saveVersion flow))
    (sent : readBody VersionRequest.ofFields r.body = .ok ⟨text, status⟩) :
    operation? r = some (.save flow text status) := by
  rw [operation?, asked]
  dsimp only
  rw [sent]

/-- An operation that adds a version is a save that was asked for. -/
theorem exists_sent {op : Store.Operation} {row : Store.VersionRow} (does : operation? r = some op)
    (adds : Store.Entry.versionRow? ⟨op, (op.run s.store).1⟩ = some row) :
    ∃ flow text status, asked? r = some (.saveVersion flow) ∧
      readBody VersionRequest.ofFields r.body = .ok ⟨text, status⟩ ∧
      op = .save flow text status := by
  rw [operation?] at does
  split at does
  · split at does
    · cases does
      contradiction
    · contradiction
  · next flow asked =>
      split at does
      · next q sent =>
          cases does
          exact ⟨flow, q.definition, q.status, asked, sent, rfl⟩
      · contradiction
  · contradiction

section

variable {h : List Store.Entry} (kept : Store.Kept h s.store)
include kept

/-- Saving in a flow that does not exist has no row and is answered with 404. -/
theorem reply_of_unknown (asked : asked? r = some (.saveVersion flow))
    (sent : readBody VersionRequest.ofFields r.body = .ok ⟨text, status⟩)
    (unknown : Store.createdFlow? h flow = none) :
    (s.handle r).1 = detailed 404 (Store.Fault.flowNotFound flow).message ∧
      Store.Entry.versionRow? ⟨.save flow text status,
        (Store.Operation.run s.store (.save flow text status)).1⟩ = none := by
  have lost : s.store.save ⟨.str flow, .str text, .str status⟩ =
      (.error (.flowNotFound flow), s.store) := Store.save_of_unknown kept.ready unknown
  rw [handle_of_sent asked sent, Store.Operation.run, lost]
  exact ⟨rfl, rfl⟩

/-- Saving in a flow that exists adds a row, and the reply shows it. -/
theorem reply_of_known (asked : asked? r = some (.saveVersion flow))
    (sent : readBody VersionRequest.ofFields r.body = .ok ⟨text, status⟩) {found : Store.FlowRow}
    (known : Store.createdFlow? h flow = some found) :
    let row := s.store.savedRow (Store.tablesOf h) flow text status
    let saved : Store.SavedVersion := ⟨row.id, .str flow, row.version, .str status⟩
    (s.handle r).1 = .ok ⟨200, .document saved.toValue⟩ ∧
      Store.Entry.versionRow? ⟨.save flow text status,
        (Store.Operation.run s.store (.save flow text status)).1⟩ = some row := by
  intro row saved
  have added : (s.store.save ⟨.str flow, .str text, .str status⟩).1 = .ok saved := by
    rw [Store.save_of_known kept.ready kept.sound.numbered known]
    rfl
  rw [handle_of_sent asked sent, Store.Operation.run, added]
  exact ⟨reply_saved row.id flow status row.version, rfl⟩

/-- A reply says that a version was saved exactly if the store got its row. -/
theorem saves_iff (r : Request) :
    (Exchange.mk r (s.handle r).1).Saves flow version text ↔
      ∃ op row, operation? r = some op ∧
        Store.Entry.versionRow? ⟨op, (op.run s.store).1⟩ = some row ∧
        row.flow = flow ∧ (row.version : Int) = version ∧ row.definition = text := by
  constructor
  · rintro ⟨asked, ⟨status, sent⟩, document, replied, named⟩
    have does := operation?_of_sent asked sent
    cases known : Store.createdFlow? h flow with
    | none =>
        have lost := (reply_of_unknown kept asked sent known).1.symm.trans replied
        have status : 404 = 200 := congrArg Answer.status (Except.ok.inj lost)
        contradiction
    | some found =>
        obtain ⟨reply, adds⟩ := reply_of_known kept asked sent known
        obtain rfl := (Body.document.inj (Answer.mk.inj (Except.ok.inj (reply.symm.trans replied))).2)
        have same := Value.int.inj (Option.some.inj named)
        exact ⟨_, _, does, adds, rfl, same, rfl⟩
  · rintro ⟨op, row, does, adds, rfl, rfl, rfl⟩
    obtain ⟨flow, text, status, asked, sent, rfl⟩ := exists_sent does adds
    cases known : Store.createdFlow? h flow with
    | none =>
        rw [(reply_of_unknown kept asked sent known).2] at adds
        contradiction
    | some found =>
        obtain ⟨reply, added⟩ := reply_of_known kept asked sent known
        obtain rfl := Option.some.inj (added.symm.trans adds)
        exact ⟨asked, ⟨status, sent⟩, _, reply, rfl⟩

/-- The versions that exchanges save are those that the history of the store adds. -/
theorem exists_saves_iff (rs : List Request) :
    (∃ e ∈ exchanges s rs, e.Saves flow version text) ↔
      ∃ entry ∈ Store.history s.store (rs.filterMap operation?), ∃ row,
        entry.versionRow? = some row ∧
        row.flow = flow ∧ (row.version : Int) = version ∧ row.definition = text := by
  induction rs generalizing h s with
  | nil => simp [exchanges, Store.history]
  | cons r rest ih =>
      have first : (Exchange.mk r (s.handle r).1).Saves flow version text ↔ _ := saves_iff kept r
      rw [exchanges, List.exists_mem_cons_iff, first, List.filterMap_cons]
      cases does : operation? r with
      | none =>
          have stored : (s.handle r).2.store = s.store := by rw [handle_service, storeAfter, does]
          rw [ih (stored ▸ kept), stored]
          simp
      | some op =>
          have stored : (s.handle r).2.store = (op.run s.store).2 := by
            rw [handle_service, storeAfter, does]
          rw [ih (stored ▸ kept.step op), stored, Store.history, List.exists_mem_cons_iff]
          simp

end

/-! ## What is found -/

/-- The store of a service after some requests. -/
theorem kept_after (spacing : Layout.Spacing Float) (drawn : Nat) (rs : List Request) :
    Store.Kept (Store.history (Store.opened drawn) (rs.filterMap operation?))
      (after ⟨spacing, Store.opened drawn⟩ rs).store := by
  rw [after_eq]
  exact (Store.kept_opened drawn).run (rs.filterMap operation?)

variable (flow) in
/-- A version is found exactly if it was saved, with the text that was saved. -/
theorem definition?_iff (spacing : Layout.Spacing Float) (drawn : Nat) (rs : List Request)
    (fits : fitsWord version = true) :
    let started : Service := ⟨spacing, Store.opened drawn⟩
    ∃ found, (after started rs).store.definition? (.str flow) (.int version) = .ok found ∧
      ∀ text, found = some text ↔ ∃ e ∈ exchanges started rs, e.Saves flow version text := by
  intro started
  have kept := kept_after spacing drawn rs
  have cell : Store.Cell.ofValue 2 (.int version) = .ok (.int version) := if_pos fits
  refine ⟨_, by rw [Store.definition?_of_ready kept.ready, cell]; rfl, fun text => ?_⟩
  rw [exists_saves_iff (Store.kept_opened drawn) rs, Option.map_eq_some_iff]
  constructor
  · rintro ⟨row, found, rfl⟩
    obtain ⟨listed, own⟩ := Store.Tables.mem_versionsOf.mp (List.mem_of_find?_eq_some found)
    have number : version = row.version := by
      simpa [Store.Cell.isVersion] using List.find?_some found
    obtain ⟨entry, added, adds⟩ := List.mem_filterMap.mp listed
    exact ⟨entry, added, row, adds, own, number.symm, rfl⟩
  · rintro ⟨entry, listed, row, adds, rfl, rfl, rfl⟩
    have stored : row ∈ (Store.tablesOf _).versions :=
      List.mem_filterMap.mpr ⟨entry, listed, adds⟩
    have member := Store.Tables.mem_versionsOf.mpr ⟨stored, rfl⟩
    exact ⟨row, kept.sound.numbered.find?_of_mem member, rfl⟩

end

end FlowDiagram.Service
