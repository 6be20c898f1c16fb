import FlowDiagram.Proofs.Service.History
import FlowDiagram.Proofs.Service.Requests
/-!
# Drawing what is stored

A version that is stored is drawn like its text when it is sent with the same layout and no other
choices: the replies are the same, whether there is a diagram or a fault
(`stored_versions_drawn_alike`). What was not saved is not found. A flow whose identifier is empty
or holds a slash has no path of its own, and nothing was ever saved in it.
-/

namespace FlowDiagram.Service

open Document

/-- A flow whose identifier is one part of a path. -/
def Nameable (flow : String) : Prop := flow ≠ "" ∧ '/' ∉ flow.toList

section

variable {s : Service} {r : Request} {flow text : String} {version : Int} {layout : Option String}

/-! ## Flows in paths -/

theorem parts_of_saveVersion {parts : List String} {method : String}
    (found : (endpoints parts).lookup method = some (.saveVersion flow)) :
    flow ∈ parts ∧ flow ≠ "" := by
  obtain ⟨before, after, listed, -⟩ := List.lookup_eq_some_iff.mp found
  have member : (method, Endpoint.saveVersion flow) ∈ endpoints parts := by simp [listed]
  unfold endpoints at member
  split at member
  · simp at member
  · simp at member
  · simp at member
  · simp at member
  · split at member
    · contradiction
    · next named =>
        obtain ⟨-, rfl⟩ : method = "POST" ∧ flow = _ := by simpa using member
        exact ⟨by simp, by simpa using named⟩
  · split at member <;> simp at member
  · contradiction

/-- Versions are saved only in flows that have a path. -/
theorem nameable_of_asked (asked : asked? r = some (.saveVersion flow)) : Nameable flow := by
  obtain ⟨part, named⟩ := parts_of_saveVersion asked
  obtain ⟨piece, cut, rfl⟩ := List.mem_map.mp part
  refine ⟨named, ?_⟩
  rw [String.toList_ofList]
  exact not_mem_of_mem_split cut

theorem settled_of_shows (shows : r.Shows flow version) :
    settled r.target.path.length r.target = r.target := by
  apply settled_eq
  rw [shows.path, getLast?_versionPath]
  decide

theorem asked?_of_shows (shows : r.Shows flow version) (nameable : Nameable flow) :
    asked? r = some (.showVersion flow (toString version)) := by
  obtain ⟨named, whole⟩ := nameable
  have parts : r.target.parts =
      ["", "api", "flows", flow, "versions", toString version, "graph"] := by
    rw [parts_versionPath shows.path, split_of_not_mem whole]
    simp
  have filled : (flow.isEmpty || (toString version).isEmpty) = false := by
    rw [Bool.or_eq_false_iff, ← Bool.not_eq_true, ← Bool.not_eq_true, String.isEmpty_iff,
      String.isEmpty_iff]
    exact ⟨named, toString_ne_empty version⟩
  rw [asked?, settled_of_shows shows, parts, shows.method, endpoints, filled]
  rfl

/-- A flow that has no path of its own is not found. -/
theorem reply_of_shows_unnameable (shows : r.Shows flow version) (lost : ¬Nameable flow) :
    (s.handle r).1 = detailed 404 "Not Found" := by
  have nothing : endpoints r.target.parts = [] := by
    rw [parts_versionPath shows.path]
    by_cases slash : '/' ∈ flow.toList
    · apply endpoints_of_long
      have pieces := one_lt_length_split slash
      simp only [List.length_append, List.length_map, List.length_cons, List.length_nil]
      omega
    · obtain rfl : flow = "" := by simpa [Nameable, slash] using lost
      rfl
  rw [handle, dispatch, settled_of_shows shows]
  dsimp only
  rw [nothing]
  rfl

/-! ## Replies -/

/-- A version that is found is drawn from its text. -/
theorem reply_of_shows {found : Option String} (shows : r.Shows flow version)
    (nameable : Nameable flow)
    (stored : s.store.definition? (.str flow) (.int version) = .ok found) :
    (s.handle r).1 =
      found.elim (detailed 404 ("Flow " ++ flow ++ " version " ++ toString version ++ " not found"))
        fun text =>
          drawn s.spacing ((r.target.parameter? "layout").getD "hierarchical") true text none := by
  rw [handle_of_asked (asked?_of_shows shows nameable), settled_of_shows shows]
  dsimp only [respond]
  rw [showVersion, integerIn?_toString]
  dsimp only
  rw [stored]
  cases found <;> rfl

/-- A text that is sent is drawn. -/
theorem reply_of_sends (sends : r.Sends text layout) :
    (s.handle r).1 = drawn s.spacing (layout.getD "hierarchical") true text none := by
  have whole : settled r.target.path.length r.target = r.target := by
    apply settled_eq
    rw [sends.path]
    decide
  have asked : asked? r = some .render := by
    rw [asked?, whole, Target.parts, sends.path, sends.method]
    rfl
  obtain ⟨object, read, definition, chosen, language, expanded⟩ := sends.body
  have named : textOr "layout" "hierarchical" object = .ok (layout.getD "hierarchical") := by
    rw [textOr, chosen]
    cases layout <;> rfl
  have fields : RenderRequest.ofFields object =
      .ok ⟨text, none, layout.getD "hierarchical", true⟩ := by
    rw [RenderRequest.ofFields, requiredText, definition, optionalText, language, named, truthOr,
      expanded]
    rfl
  have understood : readBody RenderRequest.ofFields r.body =
      .ok ⟨text, none, layout.getD "hierarchical", true⟩ := by
    rw [readBody, read]
    exact congrArg (Except.mapError BodyFault.refused) fields
  rw [handle_of_asked asked, whole]
  dsimp only [respond]
  rw [render, withBody, understood]

/-! ## Versions -/

/-- A saved version is numbered from one on, and there are at most as many as requests. -/
theorem version_of_saves (spacing : Layout.Spacing Float) (drawn : Nat) {rs : List Request}
    {e : Exchange} (listed : e ∈ exchanges ⟨spacing, Store.opened drawn⟩ rs)
    (saves : e.Saves flow version text) : 1 ≤ version ∧ version ≤ rs.length := by
  obtain ⟨entry, member, row, adds, own, rfl, -⟩ :=
    (exists_saves_iff (Store.kept_opened drawn) rs).mp ⟨e, listed, saves⟩
  let t := Store.tablesOf (Store.history (Store.opened drawn) (rs.filterMap operation?))
  have numbered : t.Numbered := (kept_after spacing drawn rs).sound.numbered
  have stored : row ∈ t.versionsOf flow :=
    Store.Tables.mem_versionsOf.mpr ⟨List.mem_filterMap.mpr ⟨entry, member, adds⟩, own⟩
  have few : (t.versionsOf flow).length ≤ rs.length :=
    calc (t.versionsOf flow).length
        ≤ t.versions.length := List.length_filter_le _ _
      _ ≤ (Store.history (Store.opened drawn) (rs.filterMap operation?)).length :=
        List.length_filterMap_le _ _
      _ = (rs.filterMap operation?).length := Store.length_history _ _
      _ ≤ rs.length := List.length_filterMap_le _ _
  have first := numbered.version_pos stored
  have last := numbered.version_le stored
  omega

end

/-- **Stored versions are drawn like texts that are sent.** A service starts and replies to some
requests. Then the reply to a request for a version that was saved is the reply to a request that
sends its text with the same layout, and there are such requests for every layout. A version that
was not saved is not found. -/
theorem stored_versions_drawn_alike (spacing : Layout.Spacing Float) (drawn : Nat)
    (rs : List Request) :
    ∃ s, start spacing { drawn } = .ok s ∧
      (∀ e ∈ exchanges s rs, ∀ flow version text, e.Saves flow version text →
        fitsWord version = true → ∀ r r' : Request, r.Shows flow version →
          r'.Sends text (r.target.parameter? "layout") →
          ((after s rs).handle r).1 = ((after s rs).handle r').1) ∧
      (∀ flow version, (∀ e ∈ exchanges s rs, ∀ text, ¬e.Saves flow version text) →
        fitsWord version = true → ∀ r : Request, r.Shows flow version →
          ∃ detail, ((after s rs).handle r).1 = detailed 404 detail) ∧
      (∀ e ∈ exchanges s rs, ∀ flow version text, e.Saves flow version text →
        1 ≤ version ∧ version ≤ rs.length) ∧
      ∀ flow version text layout, ∃ r r' : Request, r.Shows flow version ∧
        r.target.parameter? "layout" = layout ∧ r'.Sends text layout := by
  refine ⟨⟨spacing, Store.opened drawn⟩, rfl, ?_, ?_, fun e listed flow version text =>
    version_of_saves spacing drawn listed, ?_⟩
  · intro e listed flow version text saves fits r r' shows sends
    obtain ⟨found, stored, each⟩ := definition?_iff flow spacing drawn rs fits
    obtain rfl := (each text).mpr ⟨e, listed, saves⟩
    rw [reply_of_shows shows (nameable_of_asked saves.asked) stored, reply_of_sends sends]
    rfl
  · intro flow version unsaved fits r shows
    by_cases nameable : Nameable flow
    · obtain ⟨found, stored, each⟩ := definition?_iff flow spacing drawn rs fits
      have missing : found = none := by
        refine Option.eq_none_iff_forall_ne_some.mpr fun text same => ?_
        obtain ⟨e, listed, saves⟩ := (each text).mp same
        exact unsaved e listed text saves
      subst missing
      exact ⟨_, reply_of_shows shows nameable stored⟩
    · exact ⟨_, reply_of_shows_unnameable shows nameable⟩
  · intro flow version text layout
    obtain ⟨r, shows, chosen⟩ := exists_shows flow version layout
    obtain ⟨r', sends⟩ := exists_sends text layout
    exact ⟨r, r', shows, chosen, sends⟩

/-- A flow is created, and an empty text is saved in it. -/
def emptyDraft : List Request :=
  [⟨"POST", ⟨"/api/flows".toList, []⟩, some (Json.written [("name", "a")])⟩,
    ⟨"POST", ⟨"/api/flows/id-1/versions".toList, []⟩, some (Json.written [("definition", "")])⟩]

/-- A version of the flow that was created first, in a layout that there is not. -/
def showFirst (version : Int) : Request :=
  ⟨"GET", ⟨versionPath "id-1" version, "layout=grid".toList⟩, none⟩

def sendEmpty : Request :=
  ⟨"POST", ⟨"/api/flows/render".toList, []⟩,
    some (Json.written [("definition", ""), ("layout", "grid")])⟩

theorem operations_emptyDraft :
    emptyDraft.filterMap operation? = [.create "a" none, .save "id-1" "" "draft"] := by
  have created : readBody FlowRequest.ofFields (some (Json.written [("name", "a")])) =
      .ok ⟨"a", none⟩ := by
    rw [readBody, bodyObject_written (by decide)]
    rfl
  have saved : readBody VersionRequest.ofFields (some (Json.written [("definition", "")])) =
      .ok ⟨"", "draft"⟩ := by
    rw [readBody, bodyObject_written (by decide)]
    rfl
  have first (body : Option String) : asked? ⟨"POST", ⟨"/api/flows".toList, []⟩, body⟩ =
      some .createFlow := rfl
  have second (body : Option String) :
      asked? ⟨"POST", ⟨"/api/flows/id-1/versions".toList, []⟩, body⟩ =
        some (.saveVersion "id-1") := rfl
  simp only [emptyDraft, List.filterMap_cons, List.filterMap_nil, operation?, first, second, created,
    saved]

def evenly : Layout.Spacing Float := ⟨1, 1, 1, 1, 1, 1, 1, 1⟩

theorem saved_emptyDraft {flow text : String} {version : Int} :
    (∃ e ∈ exchanges ⟨evenly, Store.opened 0⟩ emptyDraft, e.Saves flow version text) ↔
      flow = "id-1" ∧ version = 1 ∧ text = "" := by
  have history : Store.history (Store.opened 0) (emptyDraft.filterMap operation?) =
      [⟨.create "a" none, .ok (.created ⟨"id-1", .str "a", .null⟩)⟩,
        ⟨.save "id-1" "" "draft", .ok (.saved ⟨"id-2", .str "id-1", 1, .str "draft"⟩)⟩] := by
    rw [operations_emptyDraft]
    rfl
  rw [exists_saves_iff (Store.kept_opened 0), history]
  simp [Store.Entry.versionRow?, eq_comm]

/-- The empty text is drawn alike in a layout that there is not, and there is one version. -/
theorem stored_versions_drawn_alike_emptyDraft :
    ∃ s, start evenly { drawn := 0 } = .ok s ∧
      ((after s emptyDraft).handle (showFirst 1)).1 = ((after s emptyDraft).handle sendEmpty).1 ∧
      ∃ detail, ((after s emptyDraft).handle (showFirst 2)).1 = detailed 404 detail := by
  obtain ⟨s, started, alike, lost, -⟩ := stored_versions_drawn_alike evenly 0 emptyDraft
  obtain rfl : ⟨evenly, Store.opened 0⟩ = s := Except.ok.inj started
  have chosen : (showFirst 1).target.parameter? "layout" = some "grid" := by decide +kernel
  have sends : sendEmpty.Sends "" ((showFirst 1).target.parameter? "layout") := by
    rw [chosen]
    exact ⟨rfl, rfl, _, bodyObject_written (by decide), rfl, rfl, rfl, rfl⟩
  obtain ⟨e, listed, saves⟩ := saved_emptyDraft.mpr ⟨rfl, rfl, rfl⟩
  have unsaved : ∀ e ∈ exchanges ⟨evenly, Store.opened 0⟩ emptyDraft, ∀ text,
      ¬e.Saves "id-1" 2 text := by
    intro e listed text saves
    obtain ⟨-, second, -⟩ := saved_emptyDraft.mp ⟨e, listed, saves⟩
    contradiction
  exact ⟨_, started, alike e listed _ _ _ saves (by decide) _ _ ⟨rfl, rfl⟩ sends,
    lost _ _ unsaved (by decide) _ ⟨rfl, rfl⟩⟩

end FlowDiagram.Service
