import FlowDiagram.Proofs.Viewer.Session
import FlowDiagram.Settings.Basic
/-!
# The latest pass is on display

Whatever the order in which calls take turns, the display is the picture of the last call
that was shown, calls are shown in the order in which they began, and a call that fails or
comes too late leaves no trace. When the call that began last ends without a fault, its
picture is on display (`display_follows_latest`).

Requests that are served together are one such session (`serve_eq_run`): each round is a turn
of every call.
-/

namespace FlowDiagram.Viewer

namespace Session

variable (setup : Setup) (s : Session)

theorem run_append (first rest : List Nat) :
    s.run setup (first ++ rest) = (s.run setup first).run setup rest :=
  List.foldl_append

theorem run_singleton (call : Nat) : s.run setup [call] = s.turn setup call := rfl

theorem history_prefix_turn (call : Nat) : s.history <+: (s.turn setup call).history := by
  rw [turn]
  split
  · exact List.prefix_refl _
  · exact List.prefix_append _ _

/-- What has happened stays in the record. -/
theorem history_prefix_run (schedule : List Nat) :
    s.history <+: (s.run setup schedule).history := by
  induction schedule generalizing s with
  | nil => exact List.prefix_refl _
  | cons call rest ih => exact (s.history_prefix_turn setup call).trans (ih _)

/-- A turn in which its call is not shown leaves the display as it is. -/
theorem picture_turn {call : Nat}
    (unshown : .ended call .shown ∉ (s.turn setup call).history) :
    (s.turn setup call).viewer.picture = s.viewer.picture := by
  rw [turn] at unshown ⊢
  cases here : s.tasks[call]? with
  | none => rfl
  | some task =>
      rw [here] at unshown
      exact Recorded.picture_advance setup s.viewer task.request call task.stage
        fun now => unshown (List.mem_append_right _ now)

/-- The turns of a call that is not shown leave the display as it is. -/
theorem picture_of_unshown {before after : List Nat} {call : Nat}
    (unshown : .ended call .shown ∉ (s.run setup (before ++ call :: after)).history) :
    (s.run setup (before ++ [call])).viewer.picture = (s.run setup before).viewer.picture := by
  rw [run_append, run_singleton]
  apply picture_turn
  intro now
  rw [run_append] at unshown
  exact unshown ((((s.run setup before).turn setup call).history_prefix_run setup after).subset now)

end Session

/-- Nothing follows the only place of the last element. -/
theorem eq_nil_of_append_cons {first rest init : List Nat} {call : Nat}
    (same : first ++ call :: rest = init ++ [call]) (new : call ∉ init) : rest = [] := by
  obtain nil | ⟨rest', last, rfl⟩ := List.eq_nil_or_concat rest
  · exact nil
  · rw [List.concat_eq_append, ← List.cons_append, ← List.append_assoc] at same
    have inner := List.append_inj_left' same rfl
    exact absurd (inner ▸ by simp) new

/-- A sublist that has the last element of a list ends with it. -/
theorem getLast?_eq_of_sublist {part init : List Nat} {call : Nat}
    (within : part.Sublist (init ++ [call])) (listed : call ∈ part) (new : call ∉ init) :
    part.getLast? = some call := by
  obtain ⟨first, last, rfl, inside, rest⟩ := List.sublist_append_iff.mp within
  obtain rfl | rfl := List.sublist_singleton.mp rest
  · rw [List.append_nil] at listed
    exact absurd (inside.subset listed) new
  · exact List.getLast?_concat

namespace Tracks

variable {setup : Setup} {requests : List Request} {s : Session}

/-- The call that began last is the last to be shown, unless it fails. -/
theorem displays_last (tracks : Tracks setup requests s) {call : Nat} {ending : Ending}
    (latest : (begun s.history).getLast? = some call)
    (ended : .ended call ending ∈ s.history) (sound : ∀ fault, ending ≠ .failed fault) :
    ∃ r, requests[call]? = some r ∧ rendering setup r = .ok s.viewer.picture := by
  obtain ⟨_, _, record⟩ := tracks.ended ended
  obtain ⟨before, between, after, split, fate⟩ := record.span
  obtain ⟨earlier, order⟩ := List.getLast?_eq_some_iff.mp latest
  have new : call ∉ earlier := by
    have once := tracks.recorded.once
    rw [order, List.nodup_append] at once
    exact fun member => once.2.2 call member call (List.mem_singleton_self call) rfl
  have place : begun before ++ call :: (begun between ++ begun after) = earlier ++ [call] := by
    rw [← order, split]
    simp
  have alone := eq_nil_of_append_cons place new
  have unbroken : ∀ other, .began other ∉ between :=
    begun_eq_nil.mp (List.append_eq_nil_iff.mp alone).1
  obtain rfl : ending = .shown := fate.mpr ⟨sound, unbroken⟩
  have shown_last : (shown s.history).getLast? = some call :=
    getLast?_eq_of_sublist (order ▸ tracks.recorded.order) (mem_shown.mpr ended) new
  have displays := tracks.recorded.displays
  rw [Displays, shown_last] at displays
  exact displays

end Tracks

/-! ## Rounds -/

/-- A session without its record. -/
def Session.outcome (s : Session) : Viewer × List Task := (s.viewer, s.tasks)

/-- The schedule of so many rounds. -/
def roundRobin (calls : Nat) : Nat → List Nat
  | 0 => []
  | n + 1 => List.range calls ++ roundRobin calls n

/-- A round is a turn of every call, one after the other. -/
theorem outcome_run_range' (setup : Setup) (v : Viewer) (first rest : List Task)
    (h : List Event) :
    (Session.run setup ⟨v, first ++ rest, h⟩ (List.range' first.length rest.length)).outcome =
      ((v.round setup rest).1, first ++ (v.round setup rest).2) := by
  induction rest generalizing first v h with
  | nil => rfl
  | cons task rest ih =>
      rcases out : v.advance setup task.request task.stage with ⟨v', stage⟩
      have turned : Session.turn setup ⟨v, first ++ task :: rest, h⟩ first.length =
          ⟨v', (first ++ [{ task with stage }]) ++ rest,
            h ++ events first.length task.stage stage⟩ := by
        simp [Session.turn, out]
      have later := ih v' (first ++ [{ task with stage }])
        (h ++ events first.length task.stage stage)
      rw [List.length_append, List.length_singleton] at later
      rw [List.length_cons, List.range'_succ, Session.run, List.foldl_cons, turned,
        ← Session.run, later]
      simp [Viewer.round, out]

theorem length_round (setup : Setup) (v : Viewer) (tasks : List Task) :
    (v.round setup tasks).2.length = tasks.length := by
  induction tasks generalizing v with
  | nil => rfl
  | cons task rest ih => exact congrArg (· + 1) (ih _)

theorem outcome_run_roundRobin (setup : Setup) (s : Session) (n : Nat) :
    (s.run setup (roundRobin s.tasks.length n)).outcome = s.viewer.rounds setup n s.tasks := by
  induction n generalizing s with
  | zero => rfl
  | succ n ih =>
      have once : (s.run setup (List.range s.tasks.length)).outcome =
          s.viewer.round setup s.tasks := by
        rw [List.range_eq_range']
        exact outcome_run_range' setup s.viewer [] s.tasks s.history
      have same : (s.run setup (List.range s.tasks.length)).tasks.length = s.tasks.length := by
        have kept := length_round setup s.viewer s.tasks
        rw [← once] at kept
        exact kept
      have later := ih (s.run setup (List.range s.tasks.length))
      rw [same] at later
      rw [roundRobin, Session.run_append, later, Viewer.rounds, ← once]
      rfl

/-- Requests that are served together take turns in rounds. -/
theorem serve_eq_run (setup : Setup) (requests : List (Request × Nat)) :
    ∃ schedule, let s := (Session.fresh requests).run setup schedule
      serve setup {} requests = (s.viewer, s.tasks.map Task.stage) := by
  let s := Session.fresh requests
  refine ⟨roundRobin s.tasks.length ((s.tasks.map fun t => t.stage.turnsLeft).foldl max 0), ?_⟩
  rw [serve]
  exact congrArg (fun out => (out.1, out.2.map Task.stage))
    (outcome_run_roundRobin setup s _).symm

/-! ## Every session -/

/-- In every session a call ends once. It is shown if it did not fail and no other pass began
before it ended. The display is the picture of the last call that was shown, and only the
turns of such calls change it. Calls are shown in the order in which they began. The call that
began last is on display once it ended, unless it failed. -/
theorem display_follows_latest (setup : Setup) (requests : List (Request × Nat))
    (schedule : List Nat) :
    let s := (Session.fresh requests).run setup schedule
    let asked := requests.map Prod.fst
    (∀ call ending, .ended call ending ∈ s.history ↔
        ∃ task, s.tasks[call]? = some task ∧ task.stage.ending? = some ending) ∧
      (∀ call ending, .ended call ending ∈ s.history →
        ∃ r, asked[call]? = some r ∧ Ended setup r s.history call ending) ∧
      Displays setup asked s.history s.viewer.picture ∧
      ((begun s.history).Nodup ∧ (shown s.history).Sublist (begun s.history)) ∧
      (∀ before call after, schedule = before ++ call :: after →
        .ended call .shown ∉ s.history →
        ((Session.fresh requests).run setup (before ++ [call])).viewer.picture =
          ((Session.fresh requests).run setup before).viewer.picture) ∧
      ∀ call ending, (begun s.history).getLast? = some call →
        .ended call ending ∈ s.history → (∀ fault, ending ≠ .failed fault) →
        ∃ r, asked[call]? = some r ∧ rendering setup r = .ok s.viewer.picture := by
  intro s asked
  have tracks : Tracks setup asked s := (tracks_fresh setup requests).run schedule
  refine ⟨tracks.ended_iff, fun _ _ => tracks.ended, tracks.recorded.displays,
    ⟨tracks.recorded.once, tracks.recorded.order⟩, ?_, fun _ _ => tracks.displays_last⟩
  intro before call after split unshown
  subst split
  exact (Session.fresh requests).picture_of_unshown setup unshown

/-- Nodes stay where they are. -/
def unmoved : Setup := ⟨Settings.customary.spacing, "manual"⟩

/-- A flow without nodes, one with a node, and a source that is no text. -/
def racing : List (Request × Nat) :=
  [(⟨.str "\x7b\x7d", .str "json"⟩, 0),
    (⟨.str "\x7b\"nodes\": \x7b\"a\": \x7b\x7d\x7d\x7d", .str "json"⟩, 0), (⟨.int 7, .null⟩, 0)]

/-- The first call begins first and the second one last. -/
def raced : Session := (Session.fresh racing).run unmoved [0, 2, 1, 0, 0, 1, 1]

/-- The first call comes too late, the third fails, and the second, which began last, is on
display. -/
theorem display_follows_latest_racing :
    begun raced.history = [0, 2, 1] ∧
      (∃ r, (racing.map Prod.fst)[0]? = some r ∧ Ended unmoved r raced.history 0 .superseded) ∧
      (∃ r, (racing.map Prod.fst)[2]? = some r ∧
        Ended unmoved r raced.history 2 (.failed (.source (.notText "int")))) ∧
      ((Session.fresh racing).run unmoved ([0, 2, 1, 0] ++ [0])).viewer.picture =
        ((Session.fresh racing).run unmoved [0, 2, 1, 0]).viewer.picture ∧
      (∃ r, (racing.map Prod.fst)[1]? = some r ∧ rendering unmoved r = .ok raced.viewer.picture) ∧
      raced.viewer.picture.nodes.map Diagram.Shape.id = ["a"] := by
  have began : begun raced.history = [0, 2, 1] := by decide +kernel
  have last : (begun raced.history).getLast? = some 1 := by rw [began]; rfl
  have late : .ended 0 .superseded ∈ raced.history := by decide +kernel
  have failed : .ended 2 (.failed (.source (.notText "int"))) ∈ raced.history := by
    decide +kernel
  have unshown : .ended 0 .shown ∉ raced.history := by decide +kernel
  have applied : .ended 1 .shown ∈ raced.history := by decide +kernel
  have shows : raced.viewer.picture.nodes.map Diagram.Shape.id = ["a"] := by decide +kernel
  obtain ⟨-, ended, -, -, kept, latest⟩ :=
    display_follows_latest unmoved racing [0, 2, 1, 0, 0, 1, 1]
  rw [raced] at *
  exact ⟨began, ended 0 _ late, ended 2 _ failed, kept [0, 2, 1, 0] 0 [1, 1] rfl unshown,
    latest 1 .shown last applied (by simp), shows⟩

end FlowDiagram.Viewer
