import FlowDiagram.Proofs.Transition.Meaning
/-!
# Conditions inside others

Inside another condition, a text says nothing or is one unit (`Stands`): an atom, a denial of
something in parentheses, or something in parentheses. How many parts of a connective are left
when those that say nothing are dropped decides between the three cases: none, one that stays as
it is, or several in parentheses (`joined_stands`). The invariant passes through every operator
(`exists_stands`).

Values that make no text have no meaning either, whatever they are (`meaning_eq_none`). So they
may be mixed into the parts of a condition without changing what it means.
-/

namespace FlowDiagram.Transition

open Document Json

/-! ## Texts beside one another -/

@[simp] theorem beside_nil {α : Type} (lists : List (List α)) : beside lists [] = lists := by
  induction lists with
  | nil => rfl
  | cons first rest ih => rw [beside, ih]; simp

theorem holds_group (choices : Choices) : (Formula.group choices).holds = someHold choices := rfl

theorem allHold_eq_all (units : List Formula) (truth : Atom → Bool) :
    allHold units truth = units.all (·.holds truth) := by
  induction units with
  | nil => rfl
  | cons f rest ih => rw [allHold, ih, List.all_cons]

theorem someHold_eq_any (choices : Choices) (truth : Atom → Bool) :
    someHold choices truth = choices.any (allHold · truth) := by
  induction choices with
  | nil => rfl
  | cons units rest ih => rw [someHold, ih, List.any_cons]

namespace Connective

variable (c : Connective) {units : List Formula}

/-- What texts say that are joined by the word. -/
def together : List Choices → Choices :=
  match c with
  | all => List.foldr beside []
  | any => List.flatten

theorem together_singleton (choices : Choices) : c.together [choices] = choices := by
  cases c <;> simp [together]

theorem reads_intercalate {texts : List String} {readings : List Choices}
    (each : List.Forall₂ Reads texts readings) (filled : texts ≠ []) :
    Reads ((" " ++ c.word ++ " ").intercalate texts) (c.together readings) := by
  induction each with
  | nil => exact absurd rfl filled
  | cons first rest ih =>
      cases rest with
      | nil => simpa [String.intercalate_singleton, together_singleton] using first
      | cons second others =>
          have later := ih (List.cons_ne_nil _ _)
          rw [String.intercalate_cons_cons]
          cases c with
          | all => exact first.and later
          | any => exact first.or later

/-- Texts without choices of their own make a single choice together. -/
theorem together_all {lists : List (List Formula)} (filled : lists ≠ []) :
    all.together (lists.map ([·])) = [lists.flatten] := by
  induction lists with
  | nil => exact absurd rfl filled
  | cons units rest ih =>
      cases rest with
      | nil => simp [together]
      | cons second others =>
          have later := ih (List.cons_ne_nil _ _)
          rw [together] at later ⊢
          rw [List.map_cons, List.foldr_cons, later]
          rfl

/-- The choices of units with the word between them. -/
def choices (units : List Formula) : Choices := c.together (units.map fun f => [[f]])

theorem choices_all (filled : units ≠ []) : all.choices units = [units] := by
  have made := together_all (mt List.map_eq_nil_iff.mp filled : units.map ([·]) ≠ [])
  rwa [List.map_map, ← List.flatMap_def, List.flatMap_singleton'] at made

theorem choices_any (units : List Formula) : any.choices units = units.map ([·]) := by
  rw [choices, together, ← List.flatMap_def]
  exact List.flatMap_pure_eq_map _ _

/-- Joined by the word, units mean what they mean combined. -/
theorem combined_holds (filled : units ≠ []) :
    c.combined (units.map Formula.holds) = some (someHold (c.choices units)) := by
  obtain ⟨f, rest, rfl⟩ := List.exists_cons_of_ne_nil filled
  cases c with
  | all =>
      rw [choices_all filled]
      simp [combined, allHold_eq_all, someHold_eq_any, Function.comp_def, funext_iff]
  | any =>
      rw [choices_any]
      simp [combined, allHold_eq_all, someHold_eq_any, Function.comp_def, funext_iff]

end Connective

/-! ## One unit -/

/-- A unit whose parts cannot be taken apart: an atom, the denial of something in parentheses,
or something in parentheses. -/
inductive Formula.Closed : Formula → Prop where
  | atom (a : Atom) : Closed (.atom a)
  | denial (choices : Choices) : Closed (.denial (.group choices))
  | group (choices : Choices) : Closed (.group choices)

/-- A text says nothing, or is one unit with a meaning. -/
inductive Stands : String → Option Meaning → Prop where
  | nothing : Stands "" none
  | unit {text : String} {f : Formula} (closed : f.Closed) (reads : Reads text [[f]]) :
      Stands text (some f.holds)

section

variable {text : String} {choices : Choices} {m : Option Meaning}

theorem Reads.ne_empty (reads : Reads text choices) : text ≠ "" := by
  rintro rfl
  have read := read?_eq_some_iff.mpr reads
  contradiction

theorem Reads.not_isEmpty (reads : Reads text choices) : text.isEmpty = false := by
  rw [← Bool.not_eq_true, String.isEmpty_iff]
  exact reads.ne_empty

theorem denied_stands (inner : Stands text m) :
    Stands (denied text) (m.map fun m truth => !m truth) := by
  cases inner with
  | nothing => exact .nothing
  | @unit _ f closed reads =>
      have denial : Stands (denied text) (some (Formula.denial (.group [[f]])).holds) := by
        rw [denied, reads.not_isEmpty]
        exact .unit (.denial _) reads.denial
      have same : (Formula.denial (.group [[f]])).holds = fun truth => !f.holds truth := by
        funext truth
        simp [Formula.holds]
      rwa [same] at denial

end

/-! ## Several parts -/

section

variable {α : Type} {parts : List α} {label : α → Except Unwritable String}
variable {means : α → Option Meaning}

/-- Of parts that are one unit each or say nothing, the units are left. -/
theorem exists_units (each : ∀ p ∈ parts, ∃ text, label p = .ok text ∧ Stands text (means p)) :
    ∃ texts units, parts.mapM label = .ok texts ∧ (∀ f ∈ units, f.Closed) ∧
      List.Forall₂ (fun text f => Reads text [[f]]) (texts.filter (!·.isEmpty)) units ∧
      parts.filterMap means = units.map Formula.holds := by
  induction parts with
  | nil => exact ⟨[], [], rfl, by simp, .nil, rfl⟩
  | cons p rest ih =>
      obtain ⟨⟨text, made, stands⟩, others⟩ := List.forall_mem_cons.mp each
      obtain ⟨texts, units, all_made, closed, read, meant⟩ := ih others
      have listed : (p :: rest).mapM label = .ok (text :: texts) := by
        rw [List.mapM_cons, made, all_made]
        rfl
      generalize meaning_eq : means p = m at stands
      cases stands with
      | nothing =>
          refine ⟨_, units, listed, closed, ?_, ?_⟩
          · simpa using read
          · simpa [meaning_eq] using meant
      | @unit _ f own reads =>
          refine ⟨_, f :: units, listed, List.forall_mem_cons.mpr ⟨own, closed⟩, ?_, ?_⟩
          · simpa [reads.not_isEmpty] using ⟨reads, read⟩
          · simpa [meaning_eq] using meant

end

section

variable {texts : List String} {units : List Formula}

theorem reads_joined (c : Connective)
    (read : List.Forall₂ (fun text f => Reads text [[f]]) texts units) (filled : texts ≠ []) :
    Reads ((" " ++ c.word ++ " ").intercalate texts) (c.choices units) :=
  c.reads_intercalate (List.forall₂_map_right_iff.mpr read) filled

/-- Inside another condition, several parts stand in parentheses and one stays as it is. -/
theorem joined_stands (c : Connective) (closed : ∀ f ∈ units, f.Closed)
    (read : List.Forall₂ (fun text f => Reads text [[f]]) (texts.filter (!·.isEmpty)) units) :
    Stands (joined c.word true texts) (c.combined (units.map Formula.holds)) := by
  rw [joined]
  generalize texts.filter (!·.isEmpty) = left at read
  cases read with
  | nil => exact .nothing
  | @cons text f _ _ own later =>
      cases later with
      | nil => simpa using Stands.unit (closed f List.mem_cons_self) own
      | cons second rest =>
          have inside := reads_joined c (.cons own (.cons second rest)) (List.cons_ne_nil _ _)
          rw [c.combined_holds (List.cons_ne_nil _ _), ← holds_group]
          simpa using Stands.unit (.group _) inside.group

/-! ## Conditions -/

/-- The text of a condition inside another one says nothing or is one unit that means the same. -/
theorem exists_stands {ignored : Value → Prop} {v : Value}
    (quiet : ∀ v, ignored v → expression true v = .ok "" ∧ meaning v = none)
    (condition : IsCondition ignored v) :
    ∃ text, expression true v = .ok text ∧ Stands text (meaning v) := by
  induction condition with
  | ignored h =>
      obtain ⟨made, meant⟩ := quiet _ h
      exact ⟨"", made, meant ▸ .nothing⟩
  | connective c filled each ih =>
      obtain ⟨texts, units, made, closed, read, meant⟩ := exists_units ih
      refine ⟨joined c.word true texts, ?_, ?_⟩
      · rw [expression_connective, made]
        rfl
      · rw [meaning_connective, meant]
        exact joined_stands c closed read
  | denial inner ih =>
      obtain ⟨text, made, stands⟩ := ih
      refine ⟨denied text, ?_, ?_⟩
      · rw [expression_denial, made]
        rfl
      · rw [meaning_denial]
        exact denied_stands stands
  | relation r first second =>
      refine ⟨_, expression_relation true r _ _, ?_⟩
      rw [meaning_relation]
      exact .unit (.atom _) (.relation r (isName_of_isOperand first) (isName_of_isOperand second))
  | existence reference =>
      refine ⟨_, expression_existence true _, ?_⟩
      rw [meaning_existence]
      exact .unit (.atom _) (.existence (isName_of_isOperand reference))
  | @together entries several each ih =>
      obtain ⟨texts, units, made, closed, read, meant⟩ := exists_units ih
      refine ⟨joined "and" true texts, ?_, ?_⟩
      · rw [expression_map, made]
        rfl
      · rw [meaning_map, meant]
        exact joined_stands .all closed read

end

/-! ## Values without a text -/

section

variable {v : Value} {word sign name : String} {nested : Bool} {texts : List String}

theorem eq_empty_of_joined (blank : joined word nested texts = "") : ∀ t ∈ texts, t = "" := by
  have filled (t : String) (rest : List String) (some_text : t.isEmpty = false)
      (empty : (" " ++ word ++ " ").intercalate (t :: rest) = "") : False := by
    cases rest with
    | nil =>
        rw [String.intercalate_singleton] at empty
        simp [empty] at some_text
    | cons second later =>
        rw [String.intercalate_cons_cons] at empty
        simp at empty
  have none_left : texts.filter (!·.isEmpty) = [] := by
    rw [joined] at blank
    cases left : texts.filter (!·.isEmpty) with
    | nil => rfl
    | cons t rest =>
        have member : t ∈ texts.filter (!·.isEmpty) := left ▸ List.mem_cons_self
        have some_text : t.isEmpty = false := by simpa using (List.mem_filter.mp member).2
        rw [left] at blank
        split at blank
        · simp at blank
        · exact (filled t rest some_text blank).elim
  intro t member
  simpa using List.filter_eq_nil_iff.mp none_left t member

theorem eq_empty_of_denied {inner : String} (blank : denied inner = "") : inner = "" := by
  rw [denied] at blank
  split at blank
  · next empty => exact String.isEmpty_iff.mp empty
  · simp at blank

/-- A relation without a text has not got two operands. -/
theorem atomOf?_of_related (known : relationSign? name = some sign)
    (blank : related sign v = .ok "") : atomOf? name v = none := by
  unfold atomOf?
  split
  · obtain ⟨operands, found, made⟩ := map_eq_ok_iff.mp blank
    cases found
    simp at made
  · split
    · next exists_name =>
        rw [exists_name] at known
        contradiction
    · rfl
  · rfl

/-- An operator without a text means nothing if that holds of its parts. -/
theorem operatorMeaning_eq_none {key : Value} {m : Option Meaning} {parts : List Meaning}
    (blank : expression true (.map [(key, v)]) = .ok "")
    (inner : expression true v = .ok "" → m = none)
    (among : ∀ texts, alternatives v = .ok texts → (∀ t ∈ texts, t = "") → parts = []) :
    operatorMeaning key v m parts = none := by
  rw [expression_operator] at blank
  unfold operatorMeaning
  split
  · obtain ⟨texts, made, empty⟩ := map_eq_ok_iff.mp blank
    rw [among texts made (eq_empty_of_joined empty)]
    rfl
  · obtain ⟨texts, made, empty⟩ := map_eq_ok_iff.mp blank
    rw [among texts made (eq_empty_of_joined empty)]
    rfl
  · obtain ⟨text, made, empty⟩ := map_eq_ok_iff.mp blank
    rw [inner (eq_empty_of_denied empty ▸ made)]
    rfl
  · next name ne_and ne_or ne_not =>
      have plain : ¬(name = "and" ∨ name = "or") := by
        rintro (rfl | rfl)
        · exact ne_and rfl
        · exact ne_or rfl
      have other : name ≠ "not" := fun same => ne_not (same ▸ rfl)
      rw [Operator.ofKey, if_neg plain, if_neg other] at blank
      cases known : relationSign? name with
      | some sign =>
          rw [known] at blank
          rw [atomOf?_of_related known blank]
          rfl
      | none =>
          rw [known] at blank
          obtain ⟨text, -, made⟩ := map_eq_ok_iff.mp blank
          simp at made
  · rfl

mutual

/-- What has no text means nothing. -/
theorem meaning_eq_none : ∀ {v : Value}, expression true v = .ok "" → meaning v = none
  | .map entries, blank => by
      obtain ⟨texts, made, empty⟩ := map_eq_ok_iff.mp blank
      rw [meaning, operatorMeanings_eq_nil made (eq_empty_of_joined empty)]
      rfl
  | .null, _ | .bool _, _ | .int _, _ | .float _, _ | .str _, _ | .bytes _, _ | .date _, _
  | .moment _, _ | .pair _ _, _ | .seq _, _ => rfl

theorem operatorMeanings_eq_nil : ∀ {es : List (Value × Value)} {texts : List String},
    operators true es = .ok texts → (∀ t ∈ texts, t = "") → operatorMeanings es = []
  | [], _, _, _ => rfl
  | (key, v) :: rest, texts, made, empty => by
      rw [operators_cons] at made
      obtain ⟨text, first, made⟩ := bind_eq_ok_iff.mp made
      obtain ⟨others, later, made⟩ := bind_eq_ok_iff.mp made
      cases made
      obtain ⟨blank, rest_blank⟩ := List.forall_mem_cons.mp empty
      have own : operatorMeaning key v (meaning v) (partMeanings v) = none :=
        operatorMeaning_eq_none (blank ▸ first) meaning_eq_none fun _ => partMeanings_eq_nil
      rw [operatorMeanings, own, operatorMeanings_eq_nil later rest_blank]
      rfl

theorem partMeanings_eq_nil : ∀ {v : Value} {texts : List String},
    alternatives v = .ok texts → (∀ t ∈ texts, t = "") → partMeanings v = []
  | .seq _, _, made, empty => itemMeanings_eq_nil made empty
  | .null, _, _, _ | .bool _, _, _, _ | .int _, _, _, _ | .float _, _, _, _ | .str _, _, _, _
  | .bytes _, _, _, _ | .date _, _, _, _ | .moment _, _, _, _ | .pair _ _, _, _, _
  | .map _, _, _, _ => rfl

theorem itemMeanings_eq_nil : ∀ {vs : List Value} {texts : List String},
    partsOf vs = .ok texts → (∀ t ∈ texts, t = "") → itemMeanings vs = []
  | [], _, _, _ => rfl
  | v :: rest, texts, made, empty => by
      obtain ⟨text, first, made⟩ := bind_eq_ok_iff.mp made
      obtain ⟨others, later, made⟩ := bind_eq_ok_iff.mp made
      cases made
      obtain ⟨blank, rest_blank⟩ := List.forall_mem_cons.mp empty
      rw [itemMeanings, meaning_eq_none (blank ▸ first), itemMeanings_eq_nil later rest_blank]
      rfl

end

end

/-! ## Delimited texts -/

/-- A text reads as one unit, and as the same unit wherever it is put beside another text. -/
structure Delimited (text : String) (f : Formula) : Prop where
  alone : read? text = some [[f]]
  before_and {other : String} {choices : Choices} (read : read? other = some choices) :
    read? (text ++ " and " ++ other) = some (beside [[f]] choices)
  after_and {other : String} {choices : Choices} (read : read? other = some choices) :
    read? (other ++ " and " ++ text) = some (beside choices [[f]])
  before_or {other : String} {choices : Choices} (read : read? other = some choices) :
    read? (text ++ " or " ++ other) = some ([f] :: choices)
  after_or {other : String} {choices : Choices} (read : read? other = some choices) :
    read? (other ++ " or " ++ text) = some (choices ++ [[f]])

theorem Reads.delimited {text : String} {f : Formula} (reads : Reads text [[f]]) :
    Delimited text f where
  alone := read?_eq_some_iff.mpr reads
  before_and read := read?_eq_some_iff.mpr (reads.and (read?_eq_some_iff.mp read))
  after_and read := read?_eq_some_iff.mpr ((read?_eq_some_iff.mp read).and reads)
  before_or read := read?_eq_some_iff.mpr (reads.or (read?_eq_some_iff.mp read))
  after_or read := read?_eq_some_iff.mpr ((read?_eq_some_iff.mp read).or reads)

/-- A value that has no text inside a condition. -/
def Blank (v : Value) : Prop := expression true v = .ok ""

/-- Inside another condition, the text of a condition is empty or delimited, and means what the
condition does; values without a text may be mixed into it anywhere. -/
theorem nested_expression_delimited (v : Value) (condition : IsCondition Blank v) :
    ∃ text, expression true v = .ok text ∧
      (text = "" ∧ meaning v = none ∨
        ∃ f : Formula, f.Closed ∧ Delimited text f ∧ meaning v = some f.holds) := by
  obtain ⟨text, made, stands⟩ :=
    exists_stands (fun v blank => ⟨blank, meaning_eq_none blank⟩) condition
  refine ⟨text, made, ?_⟩
  generalize meaning v = m at stands
  cases stands with
  | nothing => exact .inl ⟨rfl, rfl⟩
  | @unit _ f closed reads => exact .inr ⟨f, closed, reads.delimited, rfl⟩

/-- Two operators, one of them with parts that make no sense. -/
def mixedCondition : Value :=
  .map [(.str "or", .seq [.map [(.str "exists", .str "$a")], .map [(.str "gt", .seq [.str "$b"])],
      .map [(.str "eq", .seq [.str "$c", .str "$d"])], .int 3]),
    (.str "not", .map [(.str "in", .seq [.str "$e", .str "$f"])])]

theorem nested_expression_delimited_mixed :
    expression true mixedCondition = .ok "((exists $a or $c == $d) and not ($e in $f))" ∧
      ∃ text, expression true mixedCondition = .ok text ∧
        (text = "" ∧ meaning mixedCondition = none ∨
          ∃ f : Formula, f.Closed ∧ Delimited text f ∧ meaning mixedCondition = some f.holds) := by
  have operands : IsOperand "$a" ∧ IsOperand "$c" ∧ IsOperand "$d" ∧ IsOperand "$e" ∧
      IsOperand "$f" := by simp [IsOperand]
  obtain ⟨a, c, d, e, f⟩ := operands
  have parts : IsCondition Blank (.map [(.str "or", .seq [.map [(.str "exists", .str "$a")],
      .map [(.str "gt", .seq [.str "$b"])], .map [(.str "eq", .seq [.str "$c", .str "$d"])],
      .int 3])]) := by
    refine .connective .any (List.cons_ne_nil _ _) ?_
    simp only [List.forall_mem_cons]
    exact ⟨.existence a, .ignored rfl, .relation .equal c d, .ignored rfl, by simp⟩
  refine ⟨rfl, nested_expression_delimited mixedCondition (.together (by decide) ?_)⟩
  simp only [List.forall_mem_cons]
  exact ⟨parts, .denial (.relation .within e f), by simp⟩

end FlowDiagram.Transition
