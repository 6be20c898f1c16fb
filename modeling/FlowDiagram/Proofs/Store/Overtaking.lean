import FlowDiagram.Proofs.Store.Overlap
/-!
# Saves that overtake each other

A save looks up the last version of its flow in its second turn and adds its own version in
its third. If another call adds a version to the flow in between, the number of the save is
taken and the save is refused. `save_unless_overtaken` says that nothing else can happen to a
save in a flow that exists: it is refused if it was overtaken, and returns a version if not.
No two saves return the same version of a flow.

The proof follows the four turns of one call, with any turns of others between them.
-/

namespace FlowDiagram.Store

open Document

/-! ## Adding a version -/

/-- Columns of texts hold the definition and the status of a draft. -/
structure Draft.Storable (d : Draft) : Prop where
  definition : ∃ cell text, Cell.ofValue 4 d.definition = .ok cell ∧ cell.text? = some text
  status : ∃ cell, Cell.ofValue 5 d.status = .ok cell

section

variable {s : Store} {d : Draft} {flow id : String} {n : Nat}

theorem exists_versionRow (storable : d.Storable) (id flow : String) (n : Nat) :
    ∃ row, versionRow id flow n d = .ok row ∧ row.flow = flow ∧ row.version = n := by
  obtain ⟨⟨cell, text, given, content⟩, status, mark⟩ := storable
  refine ⟨⟨id, flow, n, text, status.text?⟩, ?_, rfl, rfl⟩
  simp [versionRow, given, mark, content, bind, Except.bind]

theorem addVersion_of_known (known : Known s.held d flow) :
    s.addVersion d id n = (versionRow id flow n d).bind s.held.addVersion := by
  rw [addVersion, tables_of_known known]
  simp only [bind, Except.bind, flowText_of_known known]

theorem addVersion_of_next (sound : s.Sound) (known : Known s.held d flow) (storable : d.Storable)
    (next : n = (s.held.versionsOf flow).length + 1) : ∃ t, s.addVersion d id n = .ok t := by
  obtain ⟨row, read, rfl, rfl⟩ := exists_versionRow storable id flow n
  refine ⟨s.held.withVersion row, ?_⟩
  rw [addVersion_of_known known, read]
  exact sound.held.numbered.addVersion_eq next

theorem addVersion_of_taken (sound : s.Sound) (known : Known s.held d flow)
    (storable : d.Storable) (first : 1 ≤ n) (taken : n ≤ (s.held.versionsOf flow).length) :
    s.addVersion d id n = .error .versionTaken := by
  obtain ⟨row, read, rfl, rfl⟩ := exists_versionRow storable id flow n
  obtain ⟨other, member, same⟩ := sound.held.numbered.exists_version first taken
  obtain ⟨listed, own⟩ := Tables.mem_versionsOf.mp member
  have there : s.held.versions.any fun r => r.flow == row.flow && r.version == row.version :=
    List.any_eq_true.mpr ⟨other, listed, by simp [own, same]⟩
  rw [addVersion_of_known known, read]
  exact if_pos there

end

/-! ## The turns of a save -/

namespace Session

variable {s : Session} {call : Nat} {d : Draft} {flow : String} {n : Nat}

theorem turn_started (here : s.tasks[call]? = some (.saving d .started))
    (known : Known s.store.held d flow) :
    (s.turn call).tasks[call]? = some (.saving d .found) := by
  rw [task_turn here, Task.advance, advance, findFlow_of_known known]
  rfl

theorem turn_found (here : s.tasks[call]? = some (.saving d .found)) (sound : s.store.Sound)
    (known : Known s.store.held d flow) :
    (s.turn call).tasks[call]? =
      some (.saving d (.numbered ((s.store.held.versionsOf flow).length + 1))) := by
  rw [task_turn here, Task.advance, advance, nextVersion_of_known sound known]
  rfl

theorem turn_next (here : s.tasks[call]? = some (.saving d (.numbered n))) (sound : s.store.Sound)
    (known : Known s.store.held d flow) (storable : d.Storable)
    (next : n = (s.store.held.versionsOf flow).length + 1) :
    ∃ saved, (s.turn call).tasks[call]? = some (.saving d (.added saved)) := by
  rw [task_turn here, Task.advance, advance, draw]
  obtain ⟨t, added⟩ : ∃ t, s.store.addVersion d ("id-" ++ toString (s.store.drawn + 1)) n = .ok t :=
    addVersion_of_next sound known storable next
  simp only [added]
  exact ⟨_, rfl⟩

theorem turn_taken (here : s.tasks[call]? = some (.saving d (.numbered n)))
    (sound : s.store.Sound) (known : Known s.store.held d flow) (storable : d.Storable)
    (first : 1 ≤ n) (taken : n ≤ (s.store.held.versionsOf flow).length) :
    (s.turn call).tasks[call]? = some (.saving d (.failed .versionTaken)) := by
  rw [task_turn here, Task.advance, advance, draw]
  simp only [addVersion_of_taken sound known storable first taken]
  rfl

/-- A call that has ended stays as it is. -/
theorem task_run_of_ended {task : Task} (ended : ∀ store, (task.advance store).1 = task)
    (here : s.tasks[call]? = some task) (schedule : List Nat) :
    (s.run schedule).tasks[call]? = some task := by
  induction schedule generalizing s with
  | nil => exact here
  | cons other rest ih =>
      apply ih
      by_cases own : other = call
      · rw [own, task_turn here, ended]
      · rw [task_turn_of_ne own, here]

theorem run_added {saved : SavedVersion} (here : s.tasks[call]? = some (.saving d (.added saved)))
    {rest : List Nat} (again : call ∈ rest) :
    (s.run rest).tasks[call]? = some (.saving d (.saved saved)) := by
  obtain ⟨before, after, rfl, apart⟩ := List.eq_append_cons_of_mem again
  rw [run_append, run_cons]
  apply task_run_of_ended fun store => rfl
  exact task_turn ((task_run_of_not_mem apart).trans here)

end Session

/-! ## Between look-up and addition -/

/-- A call has its second turn behind the turns `first`, and its third one when others have
taken the turns `between`. -/
structure Window (schedule : List Nat) (call : Nat) (first between rest : List Nat) : Prop where
  split : schedule = first ++ call :: (between ++ call :: rest)
  once : first.count call = 1
  apart : call ∉ between

/-- Between the second and the third turn of a call, a version is added to a flow. -/
def Overtaken (s : Session) (schedule : List Nat) (call : Nat) (flow : String) : Prop :=
  ∃ first between rest, Window schedule call first between rest ∧
    ∃ row ∈ (s.run (first ++ call :: between)).store.held.versionsOf flow,
      row ∉ (s.run (first ++ [call])).store.held.versionsOf flow

namespace Window

variable {schedule first between rest : List Nat} {call : Nat}

theorem mem_rest (window : Window schedule call first between rest)
    (enough : 4 ≤ schedule.count call) : call ∈ rest := by
  have others : between.count call = 0 := List.count_eq_zero.mpr window.apart
  rw [window.split, List.count_append, List.count_cons_self, List.count_append,
    List.count_cons_self, window.once, others] at enough
  apply List.count_pos_iff.mp
  omega

theorem exists_of_count (enough : 4 ≤ schedule.count call) :
    ∃ first between rest, Window schedule call first between rest := by
  have some_turn (turns : List Nat) (more : 0 < turns.count call) :
      ∃ before after, turns = before ++ call :: after ∧ call ∉ before ∧
        after.count call + 1 = turns.count call := by
    obtain ⟨before, after, rfl, apart⟩ := List.eq_append_cons_of_mem (List.count_pos_iff.mp more)
    refine ⟨before, after, rfl, apart, ?_⟩
    rw [List.count_append, List.count_cons_self, List.count_eq_zero.mpr apart]
    omega
  obtain ⟨a, after, rfl, apart, count⟩ := some_turn schedule (by omega)
  obtain ⟨b, after, rfl, apart', count'⟩ := some_turn after (by omega)
  obtain ⟨c, rest, rfl, apart'', -⟩ := some_turn after (by omega)
  refine ⟨a ++ call :: b, c, rest, by simp, ?_, apart''⟩
  rw [List.count_append, List.count_cons_self, List.count_eq_zero.mpr apart,
    List.count_eq_zero.mpr apart']

end Window

namespace Tracks

variable {calls : List Call} {s : Session} {call : Nat} {d : Draft} {flow : String}
  {schedule first between rest : List Nat}

/-- A flow stays known. -/
theorem known_run (tracks : Tracks calls s) (known : Known s.store.held d flow)
    (schedule : List Nat) : Known (s.run schedule).store.held d flow :=
  known.extend (tracks.extends_run schedule)

/-- When a save has had its second turn, it has the number behind the versions that its flow
had then, and keeps it while others take turns. -/
theorem numbered_of_window (tracks : Tracks calls s)
    (here : s.tasks[call]? = some (.saving d .started))
    (known : Known (s.run (schedule.takeWhile (· != call))).store.held d flow)
    (window : Window schedule call first between rest) :
    (s.run (first ++ call :: between)).tasks[call]? =
        some (.saving d
          (.numbered (((s.run (first ++ [call])).store.held.versionsOf flow).length + 1))) ∧
      Known (s.run (first ++ [call])).store.held d flow := by
  have some_turn : call ∈ first := List.count_pos_iff.mp (by rw [window.once]; exact Nat.one_pos)
  obtain ⟨a, b, rfl, apart⟩ := List.eq_append_cons_of_mem some_turn
  have once := window.once
  rw [List.count_append, List.count_cons_self, List.count_eq_zero.mpr apart] at once
  have apart' : call ∉ b := List.count_eq_zero.mp (by omega)
  -- The flow is known from the first turn on, and what others add before the second one counts.
  have begins : schedule.takeWhile (· != call) = a := by
    rw [window.split, List.append_assoc, List.takeWhile_append_of_pos (by
      intro other member
      simpa using ne_of_mem_of_not_mem member apart)]
    simp
  rw [begins] at known
  have tracks₁ := tracks.run a
  have started := (Session.task_run_of_not_mem apart).trans here
  have found := Session.turn_started started known
  have known₂ := (tracks₁.turn call).known_run (known.extend (tracks₁.extends_turn call)) b
  have tracks₂ := (tracks₁.turn call).run b
  have found' := (Session.task_run_of_not_mem apart').trans found
  have numbered := Session.turn_found found' tracks₂.sound known₂
  have unmoved : (((s.run a).turn call).run b |>.turn call).store =
      (((s.run a).turn call).run b).store := by
    rw [Session.store_turn found', Task.advance, advance, nextVersion_of_known tracks₂.sound known₂]
    rfl
  have second : s.run ((a ++ call :: b) ++ [call]) = ((s.run a).turn call |>.run b).turn call := by
    rw [Session.run_append, Session.run_append, Session.run_cons]
    rfl
  rw [List.append_cons, Session.run_append, second, unmoved]
  exact ⟨(Session.task_run_of_not_mem window.apart).trans numbered, known₂⟩

/-- A save that is not overtaken in a window returns a version, and one that is is refused. -/
theorem outcome_of_window (tracks : Tracks calls s)
    (here : s.tasks[call]? = some (.saving d .started)) (storable : d.Storable)
    (known : Known (s.run (schedule.takeWhile (· != call))).store.held d flow)
    (window : Window schedule call first between rest) (again : call ∈ rest) :
    if (s.run (first ++ call :: between)).store.held.versionsOf flow =
        (s.run (first ++ [call])).store.held.versionsOf flow then
      ∃ saved, (s.run schedule).tasks[call]? = some (.saving d (.saved saved))
    else (s.run schedule).tasks[call]? = some (.saving d (.failed .versionTaken)) := by
  obtain ⟨numbered, known'⟩ := tracks.numbered_of_window here known window
  have tracks' := tracks.run (first ++ call :: between)
  have later : s.run (first ++ call :: between) = (s.run (first ++ [call])).run between := by
    rw [List.append_cons, Session.run_append]
  have ext := (tracks.run (first ++ [call])).extends_run between
  rw [← later] at ext
  have last : s.run schedule = ((s.run (first ++ call :: between)).turn call).run rest := by
    rw [window.split, ← List.cons_append, ← List.append_assoc, Session.run_append,
      Session.run_cons]
  rw [last]
  split
  · next same =>
      obtain ⟨saved, added⟩ := Session.turn_next numbered tracks'.sound (known'.extend ext) storable
        (by rw [same])
      exact ⟨saved, Session.run_added added again⟩
  · next grown =>
      have more := ext.versionsOf flow
      have longer : ((s.run (first ++ [call])).store.held.versionsOf flow).length <
          ((s.run (first ++ call :: between)).store.held.versionsOf flow).length := by
        by_contra short
        exact grown (more.eq_of_length_le (Nat.not_lt.mp short)).symm
      have refused := Session.turn_taken numbered tracks'.sound (known'.extend ext) storable
        (Nat.succ_pos _) longer
      exact Session.task_run_of_ended (fun store => rfl) refused rest

/-- Versions were added in a window exactly if there are other versions behind it. -/
theorem exists_added_iff (tracks : Tracks calls s) (first between : List Nat) (flow : String) :
    (∃ row ∈ (s.run (first ++ call :: between)).store.held.versionsOf flow,
        row ∉ (s.run (first ++ [call])).store.held.versionsOf flow) ↔
      (s.run (first ++ call :: between)).store.held.versionsOf flow ≠
        (s.run (first ++ [call])).store.held.versionsOf flow := by
  constructor
  · rintro ⟨row, listed, new⟩ same
    exact new (same ▸ listed)
  · intro differ
    have ext := (tracks.run (first ++ [call])).extends_run between
    rw [← Session.run_append, List.append_assoc, List.singleton_append] at ext
    have distinct := (tracks.run (first ++ call :: between)).sound.held.numbered.nodup
    by_contra none_new
    push Not at none_new
    have short := (distinct.filter _).length_le_of_subset none_new
    exact differ ((ext.versionsOf flow).eq_of_length_le short).symm

/-- A save has ended after four turns. It was refused if it was overtaken, and has returned a
version if not. -/
theorem outcome (tracks : Tracks calls s) (here : s.tasks[call]? = some (.saving d .started))
    (storable : d.Storable)
    (known : Known (s.run (schedule.takeWhile (· != call))).store.held d flow)
    (enough : 4 ≤ schedule.count call) :
    (Overtaken s schedule call flow →
        (s.run schedule).tasks[call]? = some (.saving d (.failed .versionTaken))) ∧
      (¬Overtaken s schedule call flow →
        ∃ saved, (s.run schedule).tasks[call]? = some (.saving d (.saved saved))) := by
  constructor
  · rintro ⟨first, between, rest, window, grown⟩
    have ended := tracks.outcome_of_window here storable known window (window.mem_rest enough)
    rwa [if_neg ((tracks.exists_added_iff _ _ _).mp grown)] at ended
  · intro ahead
    obtain ⟨first, between, rest, window⟩ := Window.exists_of_count enough
    have ended := tracks.outcome_of_window here storable known window (window.mem_rest enough)
    have same := mt (tracks.exists_added_iff first between flow).mpr
      fun grown => ahead ⟨first, between, rest, window, grown⟩
    rwa [if_pos (not_not.mp same)] at ended

/-- What a save returned is the row that it added. -/
theorem exists_row_of_saved (tracks : Tracks calls s) {saved : SavedVersion}
    (returned : s.saved? call = some saved) :
    ∃ row, .version row ∈ s.rowsOf call ∧ row.id = saved.id ∧ row.version = saved.version := by
  obtain ⟨task, here, returned⟩ := Option.bind_eq_some_iff.mp returned
  have recorded := tracks.recorded call task here
  match task, returned with
  | .saving _ (.saved _), rfl =>
      obtain ⟨row, added, named, number, -⟩ := recorded
      exact ⟨row, added ▸ List.mem_singleton_self _, named, number⟩

/-- Two saves in a flow return different versions. -/
theorem call_eq_of_version_eq (tracks : Tracks calls s) {other : Nat} {d' : Draft}
    {saved saved' : SavedVersion} (asked : calls[call]? = some (.save d))
    (asked' : calls[other]? = some (.save d')) (within : d.flow = .str flow)
    (within' : d'.flow = .str flow) (returned : s.saved? call = some saved)
    (returned' : s.saved? other = some saved') (same : saved.version = saved'.version) :
    call = other := by
  have own {call : Nat} {d : Draft} {row : VersionRow} (asked : calls[call]? = some (.save d))
      (within : d.flow = .str flow) (added : .version row ∈ s.rowsOf call) :
      row ∈ s.store.held.versionsOf flow := by
    obtain ⟨-, _, asked', holds⟩ := tracks.rowsOf_eq added
    cases asked.symm.trans asked'
    obtain ⟨cell, given, text⟩ := holds.flow
    rw [within] at given
    cases given
    exact Tables.mem_versionsOf.mpr ⟨tracks.mem_versions.mpr ⟨call, added⟩,
      (Option.some.inj text).symm⟩
  obtain ⟨row, added, -, number⟩ := tracks.exists_row_of_saved returned
  obtain ⟨row', added', -, number'⟩ := tracks.exists_row_of_saved returned'
  obtain rfl := tracks.sound.held.numbered.eq_of_version_eq (own asked within added)
    (own asked' within' added') (by rw [number, number', same])
  exact tracks.call_unique added added'

end Tracks

/-! ## Every schedule -/

/-- Whatever the schedule, saves in a flow return different versions. A save whose flow exists
when it begins, with a text and with a status that a column holds, has ended after four turns:
it was refused because its number is taken if another version of the flow was added between
its look-up and its own addition, and has returned a version otherwise. -/
theorem save_unless_overtaken (drawn : Nat) (calls : List Call) (schedule : List Nat) :
    let s := Session.opened drawn calls
    let last := s.run schedule
    (∀ i j d d' flow saved saved', calls[i]? = some (.save d) → calls[j]? = some (.save d') →
        d.flow = .str flow → d'.flow = .str flow → last.saved? i = some saved →
        last.saved? j = some saved' → i ≠ j → saved.version ≠ saved'.version) ∧
      ∀ call flow text status, calls[call]? = some (.save ⟨.str flow, .str text, status⟩) →
        (∃ cell, Cell.ofValue 5 status = .ok cell) →
        (∃ row, (s.run (schedule.takeWhile (· != call))).store.held.flow? flow = some row) →
        4 ≤ schedule.count call →
        (last.fault? call = some .versionTaken ↔ Overtaken s schedule call flow) ∧
          ((∃ saved, last.saved? call = some saved) ↔ ¬Overtaken s schedule call flow) := by
  intro s last
  have tracks : Tracks calls s := tracks_opened drawn calls
  constructor
  · intro i j d d' flow saved saved' asked asked' within within' returned returned' apart same
    exact apart ((tracks.run schedule).call_eq_of_version_eq asked asked' within within' returned
      returned' same)
  intro call flow text status asked column exists_ enough
  have here : s.tasks[call]? = some (.saving ⟨.str flow, .str text, status⟩ .started) := by
    change (calls.map Call.task)[call]? = _
    rw [List.getElem?_map, asked]
    rfl
  have storable : Draft.Storable ⟨.str flow, .str text, status⟩ := ⟨⟨_, text, rfl, rfl⟩, column⟩
  have known : Known (s.run (schedule.takeWhile (· != call))).store.held
      ⟨.str flow, .str text, status⟩ flow := ⟨⟨_, rfl, rfl⟩, exists_⟩
  obtain ⟨refused, returned⟩ := tracks.outcome here storable known enough
  by_cases overtaken : Overtaken s schedule call flow
  · simp [Session.fault?, Session.saved?, last, refused overtaken, Task.fault?, Task.saved?,
      overtaken]
  · obtain ⟨saved, ended⟩ := returned overtaken
    simp [Session.fault?, Session.saved?, last, ended, Task.fault?, Task.saved?, overtaken]

/-- Two saves in a flow that exists, both with texts: the second is refused because the first
one took its number. Without any other call, a save whose status is a list is refused. -/
theorem collision_refuses_saves :
    let s := Session.opened 0 colliding
    let alone := [0, 0, 1, 1, 5, 5, 5, 5]
    ((s.run (collision.takeWhile (· != 3))).store.held.flow? "id-1" =
        some ⟨"id-1", "review", none⟩ ∧
      4 ≤ collision.count 3 ∧ (s.run collision).fault? 3 = some .versionTaken) ∧
      (s.run (alone.takeWhile (· != 5))).store.held.flow? "id-1" =
        some ⟨"id-1", "review", none⟩ ∧
      4 ≤ alone.count 5 ∧ (s.run alone).fault? 5 = some (.unsupported 5 "list") := by
  intro s alone
  exact ⟨by decide +kernel, by decide +kernel, by decide, by decide +kernel⟩

/-- Of the saves that take turns the second is overtaken and refused, the first is not. A save
that follows them returns the next version. -/
theorem save_unless_overtaken_colliding :
    let s := Session.opened 0 colliding
    let last := s.run collision
    (Overtaken s collision 3 "id-1" ∧ last.fault? 3 = some .versionTaken) ∧
      (¬Overtaken s collision 2 "id-1" ∧ ∃ saved, last.saved? 2 = some saved) ∧
      ∃ saved saved', last.saved? 2 = some saved ∧ last.saved? 4 = some saved' ∧
        saved.version ≠ saved'.version := by
  intro s last
  obtain ⟨differ, fate⟩ := save_unless_overtaken 0 colliding collision
  have column : ∃ cell, Cell.ofValue 5 (.str "draft") = .ok cell := ⟨_, rfl⟩
  have review {call : Nat} (apart : call = 2 ∨ call = 3) : ∃ row,
      (s.run (collision.takeWhile (· != call))).store.held.flow? "id-1" = some row := by
    obtain rfl | rfl := apart <;> exact ⟨⟨"id-1", "review", none⟩, by decide +kernel⟩
  have second := fate 3 "id-1" "second" (.str "draft") rfl column (review (.inr rfl)) (by decide)
  have first := fate 2 "id-1" "first" (.str "draft") rfl column (review (.inl rfl)) (by decide)
  have refused : last.fault? 3 = some .versionTaken := by decide +kernel
  have returned : ∃ saved, last.saved? 2 = some saved :=
    Option.isSome_iff_exists.mp (by decide +kernel)
  have later : ∃ saved, last.saved? 4 = some saved :=
    Option.isSome_iff_exists.mp (by decide +kernel)
  obtain ⟨saved, here⟩ := id returned
  obtain ⟨saved', there⟩ := later
  exact ⟨⟨second.1.mp refused, refused⟩, ⟨first.2.mp returned, returned⟩, saved, saved', here,
    there, differ 2 4 _ _ "id-1" _ _ rfl rfl rfl rfl here there (by decide)⟩

end FlowDiagram.Store
