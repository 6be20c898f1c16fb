import FlowDiagram.Viewer.Schedule
import Mathlib.Data.List.Basic
/-!
# Sessions of a viewer

A session is a viewer with the requests that were made to it, which take turns in any order,
one turn of one call at a time. Beside the viewer it records which passes began and how they
ended.

What a turn does to the record is one of three things: a pass begins (`Recorded.begin`), a
pass fails (`Recorded.fail`), or a pass ends with a picture (`Recorded.finish`), which is shown
if no other pass began in the meantime. From these follow one turn (`Tracks.turn`) and, by
induction on the schedule, every session (`Tracks.run`).
-/

namespace FlowDiagram.Viewer

open Definition

/-! ## What a request asks for -/

/-- The picture of a graph. -/
def drawing (setup : Setup) (g : Graph) : Except Diagram.Fault Picture :=
  (Diagram.ofGraph setup.spacing setup.layout g).map fun d => ⟨d.nodes, d.edges⟩

/-- The picture that a request asks for. Nothing is shown for a source without anything in it. -/
def rendering (setup : Setup) (r : Request) : Except Diagram.Fault Picture :=
  if r.text.truthy then
    (Diagram.ofSource setup.spacing setup.layout true r.text r.language).map
      fun d => ⟨d.nodes, d.edges⟩
  else .ok {}

/-- What becomes of a stage between two turns is the picture that was asked for. -/
def Stage.LeadsTo (setup : Setup) (outcome : Except Diagram.Fault Picture) : Stage → Prop
  | .parsed _ flow => outcome = ((Graph.ofFlow flow).mapError .label).bind (drawing setup)
  | .expanded _ graph => outcome = drawing setup graph
  | _ => True

section

variable {setup : Setup} {r : Request}

theorem rendering_of_blank (blank : r.text.truthy = false) : rendering setup r = .ok {} := by
  simp [rendering, blank]

theorem rendering_of_flow (filled : r.text.truthy = true) {flow : Flow}
    (read : Flow.ofSource r.text r.language = .ok flow) :
    rendering setup r = ((Graph.ofFlow flow).mapError .label).bind (drawing setup) := by
  have source : Diagram.ofSource setup.spacing setup.layout true r.text r.language =
      Diagram.ofFlow setup.spacing setup.layout true flow := by
    rw [Diagram.ofSource, read]
    rfl
  rw [rendering, if_pos filled, source, Diagram.ofFlow, if_pos rfl]
  cases Graph.ofFlow flow <;> rfl

theorem rendering_of_unread (filled : r.text.truthy = true) {fault : SourceFault}
    (unread : Flow.ofSource r.text r.language = .error fault) :
    rendering setup r = .error (.source fault) := by
  rw [rendering, if_pos filled, Diagram.ofSource, unread]
  rfl

end

/-! ## The record of a session -/

/-- How a call ends. -/
inductive Ending where
  /-- Its picture is shown. -/
  | shown
  /-- Another pass is preferred. -/
  | superseded
  | failed (fault : Diagram.Fault)
  deriving DecidableEq

/-- The end that a stage is, if it is one. -/
def Stage.ending? : Stage → Option Ending
  | .waiting _ | .parsed _ _ | .expanded _ _ => none
  | .applied => some .shown
  | .superseded => some .superseded
  | .failed fault => some (.failed fault)

/-- The pass of a call begins or ends. Calls are numbered from zero on. -/
inductive Event where
  | began (call : Nat)
  | ended (call : Nat) (ending : Ending)
  deriving DecidableEq

def Event.call : Event → Nat
  | .began call => call
  | .ended call _ => call

def Event.begun? : Event → Option Nat
  | .began call => some call
  | .ended _ _ => none

def Event.shown? : Event → Option Nat
  | .ended call .shown => some call
  | _ => none

/-- The calls whose passes began, in order. -/
def begun (h : List Event) : List Nat := h.filterMap Event.begun?

/-- The calls whose pictures were shown, in order. -/
def shown (h : List Event) : List Nat := h.filterMap Event.shown?

/-- The next turn is the first one of the pass. -/
def Stage.isDue : Stage → Bool
  | .waiting 0 => true
  | _ => false

/-- The end that a call comes to at a stage. -/
def ends (call : Nat) (stage : Stage) : List Event := (stage.ending?.map (.ended call)).toList

/-- What happens in a turn that takes a call from one stage to another. -/
def events (call : Nat) (stage stage' : Stage) : List Event :=
  (if stage.isDue then [.began call] else []) ++ if stage.isEnd then [] else ends call stage'

/-- A viewer with the calls made to it and the record of their passes. -/
structure Session where
  viewer : Viewer
  tasks : List Task
  history : List Event := []

namespace Session

/-- Nothing is on display, and no call has had a turn. -/
def fresh (requests : List (Request × Nat)) : Session where
  viewer := {}
  tasks := requests.map fun (request, turns) => ⟨request, .waiting turns⟩

/-- One turn of a call. -/
def turn (setup : Setup) (s : Session) (call : Nat) : Session :=
  match s.tasks[call]? with
  | none => s
  | some task =>
    let (viewer, stage) := s.viewer.advance setup task.request task.stage
    { viewer
      tasks := s.tasks.set call { task with stage }
      history := s.history ++ events call task.stage stage }

/-- The turns of a schedule, which names a call for each of them. -/
def run (setup : Setup) (s : Session) (schedule : List Nat) : Session :=
  schedule.foldl (turn setup) s

end Session

section

variable {h more : List Event} {call other pass : Nat} {ending : Ending}

@[simp] theorem begun_append (h more : List Event) : begun (h ++ more) = begun h ++ begun more :=
  List.filterMap_append

@[simp] theorem shown_append (h more : List Event) : shown (h ++ more) = shown h ++ shown more :=
  List.filterMap_append

@[simp] theorem begun_began (h : List Event) (call : Nat) :
    begun (.began call :: h) = call :: begun h := rfl

@[simp] theorem begun_ended (h : List Event) (call : Nat) (ending : Ending) :
    begun (.ended call ending :: h) = begun h := rfl

@[simp] theorem begun_nil : begun [] = [] := rfl

@[simp] theorem shown_nil : shown [] = [] := rfl

@[simp] theorem shown_began (h : List Event) (call : Nat) :
    shown (.began call :: h) = shown h := rfl

@[simp] theorem mem_begun : call ∈ begun h ↔ .began call ∈ h := by
  simp only [begun, List.mem_filterMap]
  constructor
  · rintro ⟨event, member, here⟩
    cases event with
    | began first =>
        cases here
        exact member
    | ended => contradiction
  · intro member
    exact ⟨_, member, rfl⟩

@[simp] theorem mem_shown : call ∈ shown h ↔ .ended call .shown ∈ h := by
  simp only [shown, List.mem_filterMap]
  constructor
  · rintro ⟨event, member, here⟩
    cases event with
    | began => contradiction
    | ended first ending =>
        cases ending with
        | shown =>
            cases here
            exact member
        | superseded => contradiction
        | failed => contradiction
  · intro member
    exact ⟨_, member, rfl⟩

@[simp] theorem ends_parsed (call pass : Nat) (flow : Flow) :
    ends call (.parsed pass flow) = [] := rfl

@[simp] theorem ends_expanded (call pass : Nat) (graph : Graph) :
    ends call (.expanded pass graph) = [] := rfl

theorem events_waiting (call turns : Nat) :
    events call (.waiting (turns + 1)) (.waiting turns) = [] := rfl

theorem events_due (call : Nat) (stage : Stage) :
    events call (.waiting 0) stage = [.began call] ++ ends call stage := rfl

theorem events_of_isEnd {stage : Stage} (due : stage.isDue = false) (ended : stage.isEnd = true)
    (stage' : Stage) : events call stage stage' = [] := by
  simp [events, due, ended]

theorem begun_eq_nil : begun h = [] ↔ ∀ other, .began other ∉ h := by
  simp only [List.eq_nil_iff_forall_not_mem, mem_begun]

/-! ## How far a call has come -/

/-- Nothing happened in a call. -/
def Unbegun (h : List Event) (call : Nat) : Prop := ∀ event ∈ h, event.call ≠ call

/-- A call has begun the pass with a number and has not ended. -/
structure Underway (h : List Event) (call pass : Nat) : Prop where
  began : ∃ before after, h = before ++ .began call :: after ∧ pass = (begun before).length + 1
  unended : ∀ ending, .ended call ending ∉ h

/-- A call has ended once. It failed with what its picture fails with. Otherwise it is shown
if no other pass began between its beginning and its end. -/
structure Ended (setup : Setup) (r : Request) (h : List Event) (call : Nat) (ending : Ending) :
    Prop where
  only : ∀ other, .ended call other ∈ h → other = ending
  span : ∃ before between after,
    h = before ++ .began call :: (between ++ .ended call ending :: after) ∧
      (ending = .shown ↔
        (∀ fault, ending ≠ .failed fault) ∧ ∀ other, .began other ∉ between)
  fails : ∀ fault, ending = .failed fault ↔ rendering setup r = .error fault

/-- A stage is where the record has a call. -/
def StageRecorded (setup : Setup) (r : Request) (h : List Event) (call : Nat) : Stage → Prop
  | .waiting _ => Unbegun h call
  | .parsed pass flow =>
    Underway h call pass ∧ (Stage.parsed pass flow).LeadsTo setup (rendering setup r)
  | .expanded pass graph =>
    Underway h call pass ∧ (Stage.expanded pass graph).LeadsTo setup (rendering setup r)
  | .applied => Ended setup r h call .shown
  | .superseded => Ended setup r h call .superseded
  | .failed fault => Ended setup r h call (.failed fault)

variable {setup : Setup} {r : Request}

theorem Unbegun.append (unbegun : Unbegun h call) (apart : Unbegun more call) :
    Unbegun (h ++ more) call := by
  intro event member
  obtain old | new := List.mem_append.mp member
  · exact unbegun event old
  · exact apart event new

theorem Unbegun.ended_not_mem (unbegun : Unbegun h call) (ending : Ending) :
    .ended call ending ∉ h := fun member => unbegun _ member rfl

theorem Unbegun.began_not_mem (unbegun : Unbegun h call) : .began call ∉ h :=
  fun member => unbegun _ member rfl

theorem Underway.append (underway : Underway h call pass) (apart : Unbegun more call) :
    Underway (h ++ more) call pass := by
  obtain ⟨⟨before, after, rfl, number⟩, unended⟩ := underway
  refine ⟨⟨before, after ++ more, by simp, number⟩, ?_⟩
  intro ending member
  obtain old | new := List.mem_append.mp member
  · exact unended ending old
  · exact apart.ended_not_mem ending new

theorem Ended.append (ended : Ended setup r h call ending) (apart : Unbegun more call) :
    Ended setup r (h ++ more) call ending := by
  obtain ⟨only, ⟨before, between, after, rfl, fate⟩, fails⟩ := ended
  refine ⟨?_, ⟨before, between, after ++ more, by simp, fate⟩, fails⟩
  intro other member
  obtain old | new := List.mem_append.mp member
  · exact only other old
  · exact absurd new (apart.ended_not_mem other)

/-- What happens in other calls leaves a call where it is. -/
theorem StageRecorded.append {stage : Stage} (recorded : StageRecorded setup r h call stage)
    (apart : Unbegun more call) : StageRecorded setup r (h ++ more) call stage := by
  cases stage with
  | waiting turns => exact Unbegun.append recorded apart
  | parsed pass flow => exact ⟨recorded.1.append apart, recorded.2⟩
  | expanded pass graph => exact ⟨recorded.1.append apart, recorded.2⟩
  | applied => exact Ended.append recorded apart
  | superseded => exact Ended.append recorded apart
  | failed fault => exact Ended.append recorded apart

theorem StageRecorded.ended {stage : Stage} (recorded : StageRecorded setup r h call stage)
    (last : stage.ending? = some ending) : Ended setup r h call ending := by
  cases stage with
  | waiting turns => contradiction
  | parsed pass flow => contradiction
  | expanded pass graph => contradiction
  | applied =>
      cases last
      exact recorded
  | superseded =>
      cases last
      exact recorded
  | failed fault =>
      cases last
      exact recorded

theorem Ended.mem (ended : Ended setup r h call ending) : .ended call ending ∈ h := by
  obtain ⟨before, between, after, rfl, -⟩ := ended.span
  simp

/-- The record has the end of a call that its stage is. -/
theorem StageRecorded.ended_mem_iff {stage : Stage} (recorded : StageRecorded setup r h call stage)
    (ending : Ending) : .ended call ending ∈ h ↔ stage.ending? = some ending := by
  constructor
  · intro member
    cases last : stage.ending? with
    | some other => rw [(recorded.ended last).only ending member]
    | none =>
        cases stage with
        | waiting turns => exact absurd member (Unbegun.ended_not_mem recorded ending)
        | parsed pass flow => exact absurd member (recorded.1.unended ending)
        | expanded pass graph => exact absurd member (recorded.1.unended ending)
        | _ => contradiction
  · exact fun last => (recorded.ended last).mem

/-- A call that is underway ends with its picture or its fault. -/
theorem Underway.ended (underway : Underway h call pass)
    (fate : ending = .shown ↔ (∀ fault, ending ≠ .failed fault) ∧ pass = (begun h).length)
    (fails : ∀ fault, ending = .failed fault ↔ rendering setup r = .error fault) :
    Ended setup r (h ++ [.ended call ending]) call ending := by
  obtain ⟨⟨before, between, rfl, number⟩, unended⟩ := underway
  refine ⟨?_, ⟨before, between, [], by simp, ?_⟩, fails⟩
  · intro other member
    obtain old | new := List.mem_append.mp member
    · exact absurd old (unended other)
    · simpa using new
  · have alone : pass = (begun (before ++ .began call :: between)).length ↔
        ∀ other, .began other ∉ between := by
      rw [← begun_eq_nil, ← List.length_eq_zero_iff, begun_append, begun_began,
        List.length_append, List.length_cons]
      omega
    rw [fate, alone]

end

/-! ## What a turn records -/

/-- The display is the picture of the last call that was shown. -/
def Displays (setup : Setup) (requests : List Request) (h : List Event) (picture : Picture) :
    Prop :=
  match (shown h).getLast? with
  | none => picture = {}
  | some call => ∃ r, requests[call]? = some r ∧ rendering setup r = .ok picture

/-- A viewer is as the record of its session says. -/
structure Recorded (setup : Setup) (requests : List Request) (v : Viewer) (h : List Event) :
    Prop where
  passes : v.passes = (begun h).length
  once : (begun h).Nodup
  order : (shown h).Sublist (begun h)
  displays : Displays setup requests h v.picture

/-- After a turn the viewer and the call are where the record has them. -/
def Follows (setup : Setup) (requests : List Request) (r : Request) (h : List Event) (call : Nat)
    (out : Viewer × Stage) : Prop :=
  Recorded setup requests out.1 h ∧ StageRecorded setup r h call out.2

namespace Recorded

variable {setup : Setup} {requests : List Request} {r : Request} {v : Viewer} {h : List Event}
  {call pass : Nat} {picture : Picture}

theorem begin (recorded : Recorded setup requests v h) (unbegun : Unbegun h call) :
    Recorded setup requests { v with passes := v.passes + 1 } (h ++ [.began call]) ∧
      Underway (h ++ [.began call]) call (v.passes + 1) := by
  have shown_same : shown (h ++ [.began call]) = shown h := by simp
  refine ⟨⟨?_, ?_, ?_, ?_⟩, ⟨⟨h, [], rfl, by rw [recorded.passes]⟩, ?_⟩⟩
  · simp [recorded.passes]
  · simpa [recorded.once, List.nodup_append] using
      fun other member => (ne_of_apply_ne Event.began fun same =>
        unbegun.began_not_mem (same ▸ member))
  · rw [shown_same, begun_append]
    exact recorded.order.trans (List.sublist_append_left _ _)
  · rw [Displays, shown_same]
    exact recorded.displays
  · intro ending member
    simpa using unbegun.ended_not_mem ending (by simpa using member)

/-- An end without a picture leaves the display as it is. -/
theorem end_unshown (recorded : Recorded setup requests v h) {ending : Ending}
    (unshown : ending ≠ .shown) : Recorded setup requests v (h ++ [.ended call ending]) := by
  have shown_same : shown (h ++ [.ended call ending]) = shown h := by
    cases ending with
    | shown => contradiction
    | superseded => simp [shown, Event.shown?]
    | failed fault => simp [shown, Event.shown?]
  refine ⟨?_, ?_, ?_, ?_⟩
  · simpa using recorded.passes
  · simpa using recorded.once
  · simpa [shown_same] using recorded.order
  · rw [Displays, shown_same]
    exact recorded.displays

/-- Only the call that began last is shown. -/
theorem end_shown (recorded : Recorded setup requests v h) (underway : Underway h call v.passes)
    (asked : requests[call]? = some r) (drawn : rendering setup r = .ok picture) :
    Recorded setup requests { v with picture } (h ++ [.ended call .shown]) := by
  have shown_more : shown (h ++ [.ended call .shown]) = shown h ++ [call] := by
    simp [shown, Event.shown?]
  obtain ⟨⟨before, after, split, number⟩, unended⟩ := underway
  have latest : begun h = begun before ++ [call] := by
    have count := recorded.passes
    rw [split, begun_append, begun_began, List.length_append, List.length_cons] at count
    have nothing : begun after = [] := List.length_eq_zero_iff.mp (by omega)
    rw [split, begun_append, begun_began, nothing]
  have earlier : (shown h).Sublist (begun before) := by
    have order := recorded.order
    rw [latest] at order
    obtain ⟨first, last, same, within, rest⟩ := List.sublist_append_iff.mp order
    obtain none | one := List.sublist_singleton.mp rest
    · rw [same, none, List.append_nil]
      exact within
    · have listed : call ∈ shown h := by simp [same, one]
      exact absurd (mem_shown.mp listed) (unended .shown)
  refine ⟨?_, ?_, ?_, ?_⟩
  · simpa using recorded.passes
  · simpa using recorded.once
  · rw [shown_more, begun_append, latest]
    simpa using earlier.append (List.Sublist.refl [call])
  · rw [Displays, shown_more, List.getLast?_concat]
    exact ⟨r, asked, drawn⟩

/-- A call that finishes its pass ends with its picture shown or not. -/
theorem finish (recorded : Recorded setup requests v h) (underway : Underway h call pass)
    (asked : requests[call]? = some r) (drawn : rendering setup r = .ok picture) :
    Follows setup requests r (h ++ ends call (v.finish pass picture).2) call
      (v.finish pass picture) := by
  rw [Viewer.finish]
  split
  · next latest =>
      subst latest
      refine ⟨recorded.end_shown underway asked drawn, underway.ended ?_ ?_⟩
      · simp [recorded.passes]
      · simp [drawn]
  · next stale =>
      refine ⟨recorded.end_unshown (by simp), underway.ended ?_ ?_⟩
      · simp [← recorded.passes, stale]
      · simp [drawn]

theorem fail (recorded : Recorded setup requests v h) (underway : Underway h call pass)
    {fault : Diagram.Fault} (fails : rendering setup r = .error fault) :
    Follows setup requests r (h ++ ends call (.failed fault)) call (v, .failed fault) := by
  refine ⟨recorded.end_unshown (by simp), underway.ended ?_ ?_⟩
  · simp
  · simp [fails]

theorem follows_start (recorded : Recorded setup requests v h) (unbegun : Unbegun h call)
    (asked : requests[call]? = some r) :
    Follows setup requests r (h ++ [.began call] ++ ends call (v.start r).2) call (v.start r) := by
  obtain ⟨recorded, underway⟩ := recorded.begin unbegun
  rw [Viewer.start]
  by_cases filled : r.text.truthy = true
  · rw [if_neg (by simp [filled])]
    cases read : Flow.ofSource r.text r.language with
    | ok flow =>
        rw [ends_parsed, List.append_nil]
        exact ⟨recorded, underway, rendering_of_flow filled read⟩
    | error fault => exact recorded.fail underway (rendering_of_unread filled read)
  · have blank : r.text.truthy = false := by simpa using filled
    rw [if_pos (by simp [blank])]
    exact recorded.finish underway asked (rendering_of_blank blank)

theorem follows_parsed (recorded : Recorded setup requests v h) {flow : Flow}
    (at_stage : StageRecorded setup r h call (.parsed pass flow)) :
    let out := v.advance setup r (.parsed pass flow)
    Follows setup requests r (h ++ ends call out.2) call out := by
  obtain ⟨underway, leads⟩ := at_stage
  rw [Stage.LeadsTo] at leads
  rw [Viewer.advance]
  cases made : Graph.ofFlow flow with
  | ok graph =>
      rw [made] at leads
      dsimp only
      rw [ends_expanded, List.append_nil]
      exact ⟨recorded, underway, leads⟩
  | error fault =>
      rw [made] at leads
      exact recorded.fail underway leads

theorem follows_expanded (recorded : Recorded setup requests v h)
    (asked : requests[call]? = some r) {graph : Graph}
    (at_stage : StageRecorded setup r h call (.expanded pass graph)) :
    let out := v.advance setup r (.expanded pass graph)
    Follows setup requests r (h ++ ends call out.2) call out := by
  obtain ⟨underway, leads⟩ := at_stage
  rw [Stage.LeadsTo, drawing] at leads
  rw [Viewer.advance]
  cases made : Diagram.ofGraph setup.spacing setup.layout graph with
  | ok d =>
      rw [made] at leads
      exact recorded.finish underway asked leads
  | error fault =>
      rw [made] at leads
      exact recorded.fail underway leads

/-- One turn of a call, seen from the record. -/
theorem advance (recorded : Recorded setup requests v h) (asked : requests[call]? = some r)
    {stage : Stage} (at_stage : StageRecorded setup r h call stage) :
    Follows setup requests r (h ++ events call stage (v.advance setup r stage).2) call
      (v.advance setup r stage) := by
  cases stage with
  | waiting turns =>
      cases turns with
      | succ turns =>
          rw [Viewer.advance, events_waiting, List.append_nil]
          exact ⟨recorded, at_stage⟩
      | zero =>
          rw [Viewer.advance, events_due, ← List.append_assoc]
          exact recorded.follows_start at_stage asked
  | parsed pass flow => exact recorded.follows_parsed at_stage
  | expanded pass graph => exact recorded.follows_expanded asked at_stage
  | applied =>
      rw [Viewer.advance, events_of_isEnd rfl rfl, List.append_nil]
      exact ⟨recorded, at_stage⟩
  | superseded =>
      rw [Viewer.advance, events_of_isEnd rfl rfl, List.append_nil]
      exact ⟨recorded, at_stage⟩
  | failed fault =>
      rw [Viewer.advance, events_of_isEnd rfl rfl, List.append_nil]
      exact ⟨recorded, at_stage⟩

/-- Only a turn that shows the picture of its call changes the display. -/
theorem picture_advance (setup : Setup) (v : Viewer) (r : Request) (call : Nat) (stage : Stage)
    (unshown : .ended call .shown ∉ events call stage (v.advance setup r stage).2) :
    (v.advance setup r stage).1.picture = v.picture := by
  have kept (v : Viewer) (pass : Nat) (picture : Picture)
      (unshown : .ended call .shown ∉ ends call (v.finish pass picture).2) :
      (v.finish pass picture).1.picture = v.picture := by
    rw [Viewer.finish] at unshown ⊢
    split
    · next latest =>
        rw [if_pos latest] at unshown
        simp [ends, Stage.ending?] at unshown
    · rfl
  cases stage with
  | waiting turns =>
      cases turns with
      | succ turns => rfl
      | zero =>
          rw [Viewer.advance, events_due, List.mem_append, not_or] at unshown
          rw [Viewer.advance]
          rw [Viewer.start] at unshown ⊢
          split
          · next blank =>
              rw [if_pos blank] at unshown
              exact kept { v with passes := v.passes + 1 } _ _ unshown.2
          · cases Flow.ofSource r.text r.language <;> rfl
  | parsed pass flow =>
      rw [Viewer.advance]
      cases Graph.ofFlow flow <;> rfl
  | expanded pass graph =>
      rw [Viewer.advance] at unshown ⊢
      cases made : Diagram.ofGraph setup.spacing setup.layout graph with
      | ok d =>
          rw [made] at unshown
          exact kept v pass _ unshown
      | error fault => rfl
  | applied => rfl
  | superseded => rfl
  | failed fault => rfl

end Recorded

/-! ## Every schedule -/

/-- A session is as its record says, and so are all calls of it. -/
structure Tracks (setup : Setup) (requests : List Request) (s : Session) : Prop where
  asked : s.tasks.map Task.request = requests
  recorded : Recorded setup requests s.viewer s.history
  calls : ∀ call task, s.tasks[call]? = some task →
    StageRecorded setup task.request s.history call task.stage
  known : ∀ event ∈ s.history, event.call < s.tasks.length

theorem tracks_fresh (setup : Setup) (requests : List (Request × Nat)) :
    Tracks setup (requests.map Prod.fst) (.fresh requests) where
  asked := by simp [Session.fresh, Function.comp_def]
  recorded := ⟨rfl, List.nodup_nil, List.Sublist.slnil, rfl⟩
  calls call task here := by
    simp only [Session.fresh, List.getElem?_map, Option.map_eq_some_iff] at here
    obtain ⟨⟨request, turns⟩, -, rfl⟩ := here
    exact fun event member => absurd member List.not_mem_nil
  known event member := absurd member List.not_mem_nil

theorem call_of_mem_events {call : Nat} {stage stage' : Stage} {event : Event}
    (member : event ∈ events call stage stage') : event.call = call := by
  rw [events, ends] at member
  obtain first | last := List.mem_append.mp member
  · split at first
    · obtain rfl := List.mem_singleton.mp first
      rfl
    · contradiction
  · split at last
    · contradiction
    · rw [Option.mem_toList, Option.map_eq_some_iff] at last
      obtain ⟨ending, -, rfl⟩ := last
      rfl

namespace Tracks

variable {setup : Setup} {requests : List Request} {s : Session}

theorem turn (tracks : Tracks setup requests s) (call : Nat) :
    Tracks setup requests (s.turn setup call) := by
  rw [Session.turn]
  cases here : s.tasks[call]? with
  | none => exact tracks
  | some task =>
      obtain ⟨bound, found⟩ := List.getElem?_eq_some_iff.mp here
      have asked : requests[call]? = some task.request := by
        rw [← tracks.asked, List.getElem?_map, here]
        rfl
      obtain ⟨recorded, at_stage⟩ :=
        tracks.recorded.advance asked (tracks.calls call task here)
      refine ⟨?_, recorded, ?_, ?_⟩
      · rw [List.map_set, ← tracks.asked]
        apply List.ext_getElem?
        intro i
        by_cases own : call = i
        · subst own
          simp [bound, found]
        · simp [own]
      · intro other task' there
        by_cases own : call = other
        · subst own
          rw [List.getElem?_set_self bound] at there
          cases there
          exact at_stage
        · rw [List.getElem?_set_ne own] at there
          apply (tracks.calls other task' there).append
          intro event member same
          exact own ((call_of_mem_events member).symm.trans same)
      · intro event member
        rw [List.length_set]
        obtain old | new := List.mem_append.mp member
        · exact tracks.known event old
        · exact call_of_mem_events new ▸ bound

theorem run (tracks : Tracks setup requests s) (schedule : List Nat) :
    Tracks setup requests (s.run setup schedule) := by
  induction schedule generalizing s with
  | nil => exact tracks
  | cons call rest ih => exact ih (tracks.turn call)

/-- A call has the end that its stage is. -/
theorem ended_iff (tracks : Tracks setup requests s) (call : Nat) (ending : Ending) :
    .ended call ending ∈ s.history ↔
      ∃ task, s.tasks[call]? = some task ∧ task.stage.ending? = some ending := by
  constructor
  · intro member
    have here := List.getElem?_eq_getElem (tracks.known _ member)
    exact ⟨_, here, ((tracks.calls call _ here).ended_mem_iff ending).mp member⟩
  · rintro ⟨task, here, last⟩
    exact ((tracks.calls call task here).ended_mem_iff ending).mpr last

/-- A call that has ended did so as its record says. -/
theorem ended (tracks : Tracks setup requests s) {call : Nat} {ending : Ending}
    (member : .ended call ending ∈ s.history) :
    ∃ r, requests[call]? = some r ∧ Ended setup r s.history call ending := by
  obtain ⟨task, here, last⟩ := (tracks.ended_iff call ending).mp member
  refine ⟨task.request, ?_, (tracks.calls call task here).ended last⟩
  rw [← tracks.asked, List.getElem?_map, here]
  rfl

end Tracks

end FlowDiagram.Viewer
