import Mathlib.Data.List.Forall2
/-!
# Outcomes

Computations here end with a result or with a fault. A computation in several parts has a
result where each of its parts has one.
-/

namespace FlowDiagram

variable {ε ε' σ α β α' β' : Type}

section

variable {x : Except ε α} {b : β}

/-- A computation with a rest succeeds where both do. -/
theorem bind_eq_ok_iff {f : α → Except ε β} :
    x.bind f = .ok b ↔ ∃ a, x = .ok a ∧ f a = .ok b := by
  cases x with
  | error e => simp [Except.bind]
  | ok a => simp [Except.bind]

theorem map_eq_ok_iff {f : α → β} : x.map f = .ok b ↔ ∃ a, x = .ok a ∧ f a = b := by
  cases x with
  | error e => simp [Except.map]
  | ok a => simp [Except.map]

theorem exists_map_iff {f : α → β} : (∃ b, x.map f = .ok b) ↔ ∃ a, x = .ok a := by
  cases x <;> simp [Except.map]

/-- Two computations after each other have results where each of them has one. -/
theorem exists_both_iff {γ : Type} {y : Except ε β} {f : α → β → γ} :
    (∃ c, (do let a ← x; let b ← y; .ok (f a b)) = .ok c) ↔
      (∃ a, x = .ok a) ∧ ∃ b, y = .ok b := by
  cases x with
  | error e => exact ⟨nofun, fun ⟨⟨a, h⟩, _⟩ => nomatch h⟩
  | ok a =>
      cases y with
      | error e => exact ⟨nofun, fun ⟨_, b, h⟩ => nomatch h⟩
      | ok b => exact ⟨fun _ => ⟨⟨a, rfl⟩, b, rfl⟩, fun _ => ⟨f a b, rfl⟩⟩

/-- The fault of a computation that has no result. -/
def faultOf? : Except ε α → Option ε
  | .ok _ => none
  | .error e => some e

theorem faultOf?_eq_some_iff {e : ε} : faultOf? x = some e ↔ x = .error e := by
  cases x <;> simp [faultOf?]

@[simp] theorem mapError_ok (f : ε → ε') (a : α) : (Except.ok a).mapError f = .ok a := rfl

@[simp] theorem mapError_error (f : ε → ε') (e : ε) :
    (Except.error e : Except ε α).mapError f = .error (f e) := rfl

theorem mapError_eq_ok_iff {f : ε → ε'} {a : α} : x.mapError f = .ok a ↔ x = .ok a := by
  cases x <;> simp

end

/-! ## Two computations side by side -/

/-- Two computations have results that are related, or fail alike. -/
inductive SameOutcome (R : α → β → Prop) : Except ε α → Except ε β → Prop where
  | ok {a : α} {b : β} (related : R a b) : SameOutcome R (.ok a) (.ok b)
  | error (e : ε) : SameOutcome R (.error e) (.error e)

theorem SameOutcome.exists_of_ok {R : α → β → Prop} {x : Except ε α} {y : Except ε β}
    (same : SameOutcome R x y) {a : α} (first : x = .ok a) : ∃ b, y = .ok b ∧ R a b := by
  cases same with
  | ok related =>
      cases first
      exact ⟨_, rfl, related⟩
  | error e => contradiction

theorem SameOutcome.bind {R : α → β → Prop} {S : α' → β' → Prop} {x : Except ε α}
    {y : Except ε β} {f : α → Except ε α'} {g : β → Except ε β'} (first : SameOutcome R x y)
    (next : ∀ a b, x = .ok a → R a b → SameOutcome S (f a) (g b)) :
    SameOutcome S (x.bind f) (y.bind g) := by
  cases first with
  | ok related => exact next _ _ rfl related
  | error e => exact .error e

/-! ## Lists of computations -/

theorem exists_mapM_eq_ok {f : α → Except ε β} {l : List α} (each : ∀ a ∈ l, ∃ b, f a = .ok b) :
    ∃ bs, l.mapM f = .ok bs := by
  induction l with
  | nil => exact ⟨[], rfl⟩
  | cons a rest ih =>
      obtain ⟨b, first⟩ := each a List.mem_cons_self
      obtain ⟨bs, others⟩ := ih fun a' later => each a' (List.mem_cons_of_mem _ later)
      exact ⟨b :: bs, by rw [List.mapM_cons, first, others]; rfl⟩

/-- The results stand in the order of the elements that they come from. -/
theorem mapM_eq_ok_iff {f : α → Except ε β} {l : List α} {bs : List β} :
    l.mapM f = .ok bs ↔ List.Forall₂ (fun a b => f a = .ok b) l bs := by
  induction l generalizing bs with
  | nil =>
      rw [List.forall₂_nil_left_iff, List.mapM_nil]
      exact ⟨fun h => (Except.ok.inj h).symm, fun same => congrArg Except.ok same.symm⟩
  | cons a rest ih =>
      rw [List.mapM_cons]
      constructor
      · intro h
        obtain ⟨b, first, h⟩ := bind_eq_ok_iff.mp h
        obtain ⟨others, later, h⟩ := bind_eq_ok_iff.mp h
        cases h
        exact .cons first (ih.mp later)
      · rintro (_ | ⟨first, later⟩)
        rw [first, ih.mpr later]
        rfl

theorem exists_of_mapM_eq_ok {f : α → Except ε β} {l : List α} {bs : List β}
    (h : l.mapM f = .ok bs) : ∀ b ∈ bs, ∃ a ∈ l, f a = .ok b := by
  have each := mapM_eq_ok_iff.mp h
  clear h
  induction each with
  | nil => exact fun b member => absurd member List.not_mem_nil
  | cons own later ih =>
      refine List.forall_mem_cons.mpr ⟨⟨_, List.mem_cons_self, own⟩, fun b member => ?_⟩
      obtain ⟨a, listed, found⟩ := ih b member
      exact ⟨a, List.mem_cons_of_mem _ listed, found⟩

/-- Each result comes from some element. -/
theorem exists_of_mapM_eq_some {f : α → Option β} {l : List α} {bs : List β}
    (h : l.mapM f = some bs) : ∀ b ∈ bs, ∃ a ∈ l, f a = some b := by
  induction l generalizing bs with
  | nil =>
      cases h
      exact fun b member => absurd member List.not_mem_nil
  | cons a rest ih =>
      rw [List.mapM_cons] at h
      obtain ⟨b, first, h⟩ := Option.bind_eq_some_iff.mp h
      obtain ⟨others, later, h⟩ := Option.bind_eq_some_iff.mp h
      cases h
      refine List.forall_mem_cons.mpr ⟨⟨a, List.mem_cons_self, first⟩, ?_⟩
      intro c member
      obtain ⟨a', listed, found⟩ := ih later c member
      exact ⟨a', List.mem_cons_of_mem _ listed, found⟩

theorem exists_mapM_eq_some_iff {f : α → Option β} {l : List α} :
    (∃ bs, l.mapM f = some bs) ↔ ∀ a ∈ l, ∃ b, f a = some b := by
  induction l with
  | nil => simp
  | cons a rest ih =>
      rw [List.mapM_cons, List.forall_mem_cons, ← ih]
      cases f a with
      | none => simp
      | some b => cases rest.mapM f <;> simp

/-- Where each result is known, so is the list of them. -/
theorem eq_map_of_mapM_eq_some {f : α → Option β} {g : α → β} {l : List α} {bs : List β}
    (each : ∀ a ∈ l, ∀ b, f a = some b → b = g a) (h : l.mapM f = some bs) : bs = l.map g := by
  induction l generalizing bs with
  | nil =>
      cases h
      rfl
  | cons a rest ih =>
      rw [List.mapM_cons] at h
      obtain ⟨b, first, h⟩ := Option.bind_eq_some_iff.mp h
      obtain ⟨others, later, h⟩ := Option.bind_eq_some_iff.mp h
      cases h
      have rest_eq := ih (fun a' listed => each a' (List.mem_cons_of_mem _ listed)) later
      rw [List.map_cons, each a List.mem_cons_self b first, rest_eq]

section

variable {step : σ → α → Except ε σ} {l : List α}

/-- A fold goes through where each step does. -/
theorem exists_foldlM_eq_ok (each : ∀ a ∈ l, ∀ state, ∃ next, step state a = .ok next)
    (state : σ) : ∃ last, l.foldlM step state = .ok last := by
  induction l generalizing state with
  | nil => exact ⟨state, rfl⟩
  | cons a rest ih =>
      obtain ⟨next, first⟩ := each a List.mem_cons_self state
      obtain ⟨last, others⟩ := ih (fun b later => each b (List.mem_cons_of_mem _ later)) next
      refine ⟨last, ?_⟩
      rw [List.foldlM_cons, first]
      exact others

/-- A fold stops where one of its steps does. -/
theorem exists_of_foldlM_eq_error {state : σ} {e : ε} (stopped : l.foldlM step state = .error e) :
    ∃ a ∈ l, ∃ state, step state a = .error e := by
  induction l generalizing state with
  | nil => contradiction
  | cons a rest ih =>
      rw [List.foldlM_cons] at stopped
      cases first : step state a with
      | error e' =>
          rw [first] at stopped
          cases stopped
          exact ⟨a, List.mem_cons_self, state, first⟩
      | ok state' =>
          rw [first] at stopped
          obtain ⟨b, later, state, found⟩ := ih stopped
          exact ⟨b, List.mem_cons_of_mem _ later, state, found⟩

end

/-- A fold goes along with a change of its states, elements and faults if its steps do. -/
theorem foldlM_map_map {σ' : Type} {step : σ → α → Except ε σ} {step' : σ' → α' → Except ε' σ'}
    {l : List α} (state' : σ → σ') (element : α → α') (fault : ε → ε')
    (each : ∀ a ∈ l, ∀ state, step' (state' state) (element a) =
      ((step state a).mapError fault).map state') (state : σ) :
    (l.map element).foldlM step' (state' state) =
      ((l.foldlM step state).mapError fault).map state' := by
  induction l generalizing state with
  | nil => rfl
  | cons a rest ih =>
      rw [List.map_cons, List.foldlM_cons, List.foldlM_cons, each a List.mem_cons_self state]
      cases step state a with
      | error e => rfl
      | ok next => exact ih (fun b later => each b (List.mem_cons_of_mem _ later)) next

end FlowDiagram
