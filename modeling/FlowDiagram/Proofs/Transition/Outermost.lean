import FlowDiagram.Proofs.Transition.Nested
/-!
# Conditions that stand alone

The text of a whole condition has no parentheses around it. An operator with several parts is
read as its choices; where several operators are written with `and` between them, the last
choice of each one is joined with the first choice of the next (`outermost_expression_reads`).

So a condition keeps its meaning if none of its operators is a choice of several parts or if
there is nothing beside it. Next to another operator a choice falls apart
(`outermost_choice_falls_apart`), because the flag that says whether parentheses are needed is
passed on from the mapping to its operators as it is.
-/

namespace FlowDiagram.Transition

open Document Json

/-- A tree of known operators, each of which has all its operands. -/
abbrev IsProper (v : Value) : Prop := IsCondition (fun _ => False) v

/-- No choice of several parts stands beside another operator. -/
def Sheltered (entries : List (Value × Value)) : Prop :=
  entries.length ≤ 1 ∨ ∀ parts, (Value.str "or", Value.seq parts) ∈ entries → parts.length ≤ 1

section

variable {v : Value} {entries : List (Value × Value)} {e : Value × Value}

/-! ## Meanings -/

theorem Connective.isSome_combined (c : Connective) {parts : List Meaning} (filled : parts ≠ []) :
    (c.combined parts).isSome := by
  obtain ⟨m, rest, rfl⟩ := List.exists_cons_of_ne_nil filled
  cases c <;> rfl

/-- Parts that all mean something mean something together. -/
theorem isSome_combined_filterMap {α : Type} {parts : List α} {means : α → Option Meaning}
    (c : Connective) (filled : parts ≠ []) (each : ∀ p ∈ parts, (means p).isSome) :
    (c.combined (parts.filterMap means)).isSome := by
  refine c.isSome_combined fun none_left => filled ?_
  have kept := List.filterMap_length_eq_length.mpr each
  rw [none_left] at kept
  exact List.length_eq_zero_iff.mp kept.symm

theorem IsProper.isSome_meaning (proper : IsProper v) : (meaning v).isSome := by
  induction proper with
  | ignored h => exact h.elim
  | connective c filled each ih =>
      rw [meaning_connective]
      exact isSome_combined_filterMap c filled ih
  | denial inner ih => rwa [meaning_denial, Option.isSome_map]
  | relation r first second => rw [meaning_relation]; rfl
  | existence reference => rw [meaning_existence]; rfl
  | @together entries several each ih =>
      rw [meaning_map]
      refine isSome_combined_filterMap .all ?_ ih
      rintro rfl
      contradiction

/-- Inside another condition, a proper one is a unit. -/
theorem IsProper.exists_unit (proper : IsProper v) :
    ∃ text f, expression true v = .ok text ∧ Reads text [[f]] ∧ meaning v = some f.holds := by
  obtain ⟨text, made, stands⟩ := exists_stands (fun _ h => h.elim) proper
  have meant := proper.isSome_meaning
  generalize meaning v = m at stands meant
  cases stands with
  | nothing => contradiction
  | @unit _ f closed reads => exact ⟨text, f, made, reads, rfl⟩

/-! ## One operator -/

/-- How an operator that stands alone is read. It has choices only if it is one of several
parts. -/
structure Shown (e : Value × Value) (label : String) (reading : Choices) : Prop where
  made : expression false (.map [e]) = .ok label
  read : read? label = some reading
  means : meaning (.map [e]) = some (someHold reading)
  single : (∀ parts, e = (Value.str "or", Value.seq parts) → parts.length ≤ 1) →
    ∃ units, reading = [units]

theorem Shown.of_unit {label : String} {f : Formula} (made : expression false (.map [e]) = .ok label)
    (reads : Reads label [[f]]) (meant : meaning (.map [e]) = some f.holds) :
    Shown e label [[f]] where
  made := made
  read := read?_eq_some_iff.mpr reads
  means := by simp [meant, funext_iff]
  single _ := ⟨[f], rfl⟩

/-- A connective with several parts is read as their choices. -/
theorem exists_shown_connective (c : Connective) {parts : List Value} (filled : parts ≠ [])
    (each : ∀ p ∈ parts, IsProper p) :
    ∃ label reading, Shown (.str c.word, .seq parts) label reading := by
  obtain ⟨texts, units, made, -, reads, meant⟩ :=
    exists_units fun p member => exists_stands (fun _ h => h.elim) (each p member)
  have as_many : units.length = parts.length := by
    rw [← List.length_map, ← meant]
    exact List.filterMap_length_eq_length.mpr fun p member => (each p member).isSome_meaning
  have some_unit : units ≠ [] := by
    rintro rfl
    exact filled (List.length_eq_zero_iff.mp as_many.symm)
  have some_text : texts.filter (!·.isEmpty) ≠ [] := by
    rw [← List.length_pos_iff, reads.length_eq]
    exact List.length_pos_iff.mpr some_unit
  refine ⟨_, c.choices units, ?_, read?_eq_some_iff.mpr (reads_joined c reads some_text), ?_, ?_⟩
  · rw [expression_connective, made]
    simp [Except.map, joined]
  · rw [meaning_connective, meant, c.combined_holds some_unit]
  · intro narrow
    cases c with
    | all => exact ⟨units, Connective.choices_all some_unit⟩
    | any =>
        have few := narrow parts rfl
        have filled := List.length_pos_iff.mpr some_unit
        obtain ⟨f, rfl⟩ := List.length_eq_one_iff.mp (show units.length = 1 by omega)
        exact ⟨[f], rfl⟩

theorem IsProper.exists_shown (proper : IsProper (.map [e])) :
    ∃ label reading, Shown e label reading := by
  obtain ⟨text, f, made, reads, meant⟩ := proper.exists_unit
  cases proper with
  | ignored h => exact h.elim
  | connective c filled each => exact exists_shown_connective c filled each
  | denial inner =>
      rw [expression_denial] at made
      exact ⟨text, _, .of_unit (by rw [expression_denial, made]) reads meant⟩
  | relation r first second =>
      rw [expression_relation] at made
      exact ⟨text, _, .of_unit (by rw [expression_relation, made]) reads meant⟩
  | existence reference =>
      rw [expression_existence] at made
      exact ⟨text, _, .of_unit (by rw [expression_existence, made]) reads meant⟩
  | together several each => simp at several

/-! ## Several operators -/

theorem IsProper.each (proper : IsProper (.map entries)) : ∀ e ∈ entries, IsProper (.map [e]) := by
  cases proper with
  | ignored h => exact h.elim
  | together several each => exact each
  | connective c filled each => exact List.forall_mem_singleton.mpr (.connective c filled each)
  | denial inner => exact List.forall_mem_singleton.mpr (.denial inner)
  | relation r first second => exact List.forall_mem_singleton.mpr (.relation r first second)
  | existence reference => exact List.forall_mem_singleton.mpr (.existence reference)

theorem IsProper.entries_ne_nil (proper : IsProper (.map entries)) : entries ≠ [] := by
  rintro rfl
  have meant := proper.isSome_meaning
  contradiction

theorem exists_labels (each : ∀ e ∈ entries, ∃ label reading, Shown e label reading) :
    ∃ labels readings, entries.mapM (fun e => expression false (.map [e])) = .ok labels ∧
      List.Forall₂ Reads labels readings ∧
      List.Forall₂ (fun e reading => ∃ label, Shown e label reading) entries readings := by
  induction entries with
  | nil => exact ⟨[], [], rfl, .nil, .nil⟩
  | cons e rest ih =>
      obtain ⟨⟨label, reading, shown⟩, later⟩ := List.forall_mem_cons.mp each
      obtain ⟨labels, readings, made, reads, all_shown⟩ := ih later
      refine ⟨label :: labels, reading :: readings, ?_, ?_, .cons ⟨label, shown⟩ all_shown⟩
      · rw [List.mapM_cons, shown.made, made]
        rfl
      · exact .cons (read?_eq_some_iff.mp shown.read) reads

theorem joined_of_reads {labels : List String} {readings : List Choices} (word : String)
    (reads : List.Forall₂ Reads labels readings) :
    joined word false labels = (" " ++ word ++ " ").intercalate labels := by
  have kept : labels.filter (!·.isEmpty) = labels := by
    induction reads with
    | nil => rfl
    | cons own later ih => simp [own.not_isEmpty, ih]
  rw [joined, kept]
  rfl

theorem allHold_flatten (lists : List (List Formula)) (truth : Atom → Bool) :
    allHold lists.flatten truth = lists.all (allHold · truth) := by
  induction lists with
  | nil => rfl
  | cons units rest ih => rw [List.flatten_cons, allHold_append, ih, List.all_cons]

/-- Operators that make no choice hold together. -/
theorem combined_someHold {lists : List (List Formula)} (filled : lists ≠ []) :
    Connective.all.combined ((lists.map ([·])).map someHold) =
      some (someHold (Connective.all.together (lists.map ([·])))) := by
  obtain ⟨units, rest, rfl⟩ := List.exists_cons_of_ne_nil filled
  rw [Connective.together_all filled]
  simp [Connective.combined, allHold_flatten, allHold_append, Function.comp_def, funext_iff]

section

variable {readings : List Choices}
variable (shown : List.Forall₂ (fun e reading => ∃ label, Shown e label reading) entries readings)
include shown

theorem filterMap_meaning_of_shown :
    entries.filterMap (fun e => meaning (.map [e])) = readings.map someHold := by
  induction shown with
  | nil => rfl
  | cons first later ih =>
      obtain ⟨label, own⟩ := first
      rw [List.filterMap_cons, own.means, List.map_cons, ← ih]

theorem exists_lists_of_shown
    (narrow : ∀ parts, (Value.str "or", Value.seq parts) ∈ entries → parts.length ≤ 1) :
    ∃ lists : List (List Formula), readings = lists.map ([·]) := by
  induction shown with
  | nil => exact ⟨[], rfl⟩
  | cons first later ih =>
      obtain ⟨label, own⟩ := first
      obtain ⟨units, rfl⟩ := own.single fun parts same => narrow parts (same ▸ List.mem_cons_self)
      obtain ⟨lists, rfl⟩ := ih fun parts member => narrow parts (List.mem_cons_of_mem _ member)
      exact ⟨units :: lists, rfl⟩

/-- Sheltered conditions mean what their texts say. -/
theorem meaning_of_sheltered (filled : entries ≠ []) (sheltered : Sheltered entries) :
    meaning (.map entries) = some (someHold (Connective.all.together readings)) := by
  rw [meaning_map, filterMap_meaning_of_shown shown]
  obtain few | narrow := sheltered
  · match shown with
    | .nil => contradiction
    | .cons _ .nil => simp [Connective.together_singleton]
    | .cons _ (.cons _ _) => simp at few
  · obtain ⟨lists, rfl⟩ := exists_lists_of_shown shown narrow
    refine combined_someHold ?_
    rintro rfl
    cases shown
    contradiction

end

/-- The text of a whole condition reads as the texts of its operators with `and` between them:
where one ends and the next begins, their choices are put together. If no choice of several parts
stands beside another operator, it means what the condition does. -/
theorem outermost_expression_reads (entries : List (Value × Value))
    (proper : IsProper (.map entries)) :
    ∃ text choices, expression false (.map entries) = .ok text ∧ read? text = some choices ∧
      (∃ readings, List.Forall₂ (fun e reading => ∃ label, Shown e label reading) entries readings ∧
        choices = readings.foldr beside []) ∧
      (Sheltered entries → meaning (.map entries) = some (someHold choices)) := by
  obtain ⟨labels, readings, made, reads, shown⟩ :=
    exists_labels fun e member => (proper.each e member).exists_shown
  have some_label : labels ≠ [] := by
    have filled := List.length_pos_iff.mpr proper.entries_ne_nil
    rwa [shown.length_eq, ← reads.length_eq, List.length_pos_iff] at filled
  refine ⟨joined "and" false labels, Connective.all.together readings, ?_, ?_, ?_, ?_⟩
  · rw [expression_map, made]
    rfl
  · rw [joined_of_reads "and" reads]
    exact read?_eq_some_iff.mpr (Connective.all.reads_intercalate reads some_label)
  · exact ⟨readings, shown, rfl⟩
  · exact meaning_of_sheltered shown proper.entries_ne_nil

end

def shelteredEntries : List (Value × Value) :=
  [(.str "and", .seq [.map [(.str "or", .seq [.map [(.str "exists", .str "$a")],
      .map [(.str "exists", .str "$b")]])], .map [(.str "gt", .seq [.str "$c", .str "$d"])]]),
    (.str "not", .map [(.str "exists", .str "$e")])]

theorem outermost_expression_reads_sheltered :
    Sheltered shelteredEntries ∧
      expression false (.map shelteredEntries) =
        .ok "(exists $a or exists $b) and $c > $d and not (exists $e)" ∧
      ∃ text choices,
        expression false (.map shelteredEntries) = .ok text ∧ read? text = some choices ∧
          (∃ readings, List.Forall₂ (fun e reading => ∃ label, Shown e label reading)
            shelteredEntries readings ∧ choices = readings.foldr beside []) ∧
          (Sheltered shelteredEntries →
            meaning (.map shelteredEntries) = some (someHold choices)) := by
  have operands : IsOperand "$a" ∧ IsOperand "$b" ∧ IsOperand "$c" ∧ IsOperand "$d" ∧
      IsOperand "$e" := by simp [IsOperand]
  obtain ⟨a, b, c, d, e⟩ := operands
  have choice : IsProper (.map [(.str "or", .seq [.map [(.str "exists", .str "$a")],
      .map [(.str "exists", .str "$b")]])]) := by
    refine .connective .any (List.cons_ne_nil _ _) ?_
    simp only [List.forall_mem_cons]
    exact ⟨.existence a, .existence b, by simp⟩
  refine ⟨.inr (by simp [shelteredEntries]), rfl,
    outermost_expression_reads shelteredEntries (.together (by decide) ?_)⟩
  simp only [shelteredEntries, List.forall_mem_cons]
  refine ⟨.connective .all (List.cons_ne_nil _ _) ?_, .denial (.existence e), by simp⟩
  simp only [List.forall_mem_cons]
  exact ⟨choice, .relation .greater c d, by simp⟩

/-- A choice of two parts beside another operator. -/
def besideChoice : List (Value × Value) :=
  [(.str "or", .seq [.map [(.str "exists", .str "$a")], .map [(.str "exists", .str "$b")]]),
    (.str "eq", .seq [.str "$c", .str "$d"])]

/-- Where only `$a` exists the text of the condition holds and the condition does not. -/
theorem outermost_choice_falls_apart :
    IsProper (.map besideChoice) ∧
      expression false (.map besideChoice) = .ok "exists $a or exists $b and $c == $d" ∧
      ∃ choices m truth, read? "exists $a or exists $b and $c == $d" = some choices ∧
        meaning (.map besideChoice) = some m ∧ someHold choices truth = true ∧ m truth = false := by
  have operands : IsOperand "$a" ∧ IsOperand "$b" ∧ IsOperand "$c" ∧ IsOperand "$d" := by
    simp [IsOperand]
  obtain ⟨a, b, c, d⟩ := operands
  refine ⟨.together (by decide) ?_, rfl, ?_⟩
  · simp only [besideChoice, List.forall_mem_cons]
    refine ⟨.connective .any (List.cons_ne_nil _ _) ?_, .relation .equal c d, by simp⟩
    simp only [List.forall_mem_cons]
    exact ⟨.existence a, .existence b, by simp⟩
  · exact ⟨_, _, fun a => a = .existence "$a", rfl, rfl, rfl, rfl⟩

end FlowDiagram.Transition
