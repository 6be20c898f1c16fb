import FlowDiagram.Proofs.Transition.Formula
import FlowDiagram.Transition.Label
/-!
# What conditions mean

A condition in a document is a tree: a mapping holds operators with their parts. `meaning` says
which boolean function of its atoms the tree stands for. Several operators in one mapping hold
together, and whatever says nothing is left out. This looks at the tree alone; no text is made.

`IsCondition` describes the trees whose texts can be read: each operator is known, and each
operand is a reference, which begins with a dollar sign and has neither blanks nor parentheses.
Parts that say nothing may stand anywhere among the others.

Both the text and the meaning of a mapping are put together from those of its operators alone
(`expression_map`, `meaning_map`), so what is proved of an operator is proved of a mapping that
holds nothing else.
-/

namespace FlowDiagram.Transition

open Document Json

/-! ## Meanings -/

/-- How a relation is called in a condition. -/
def Relation.key : Relation → String
  | equal => "eq"
  | unequal => "ne"
  | greater => "gt"
  | less => "lt"
  | atLeast => "ge"
  | atMost => "le"
  | within => "in"
  | containing => "contains"

def Relation.ofKey? (name : String) : Option Relation := all.find? fun r => r.key == name

/-- An operator with any number of parts. -/
inductive Connective where
  | all
  | any
  deriving DecidableEq, Repr

namespace Connective

def word : Connective → String
  | all => "and"
  | any => "or"

/-- The meaning of several parts, if there are any. -/
def combined (c : Connective) : List Meaning → Option Meaning
  | [] => none
  | parts =>
    match c with
    | all => some fun truth => parts.all (· truth)
    | any => some fun truth => parts.any (· truth)

@[simp] theorem combined_singleton (c : Connective) (m : Meaning) : c.combined [m] = some m := by
  cases c <;> simp [combined]

end Connective

/-- The atom that an operator with operands stands for. -/
def atomOf? (name : String) : Value → Option Atom
  | .seq [.str left, .str right] => (Relation.ofKey? name).map fun r => .relation r left right
  | .str operand => if name = "exists" then some (.existence operand) else none
  | _ => none

/-- The meaning of an operator with a value, by what the value means as a condition and what its
parts mean. -/
def operatorMeaning (key v : Value) (inner : Option Meaning) (parts : List Meaning) :
    Option Meaning :=
  match key with
  | .str "and" => Connective.all.combined parts
  | .str "or" => Connective.any.combined parts
  | .str "not" => inner.map fun m truth => !m truth
  | .str name => (atomOf? name v).map fun a truth => truth a
  | _ => none

mutual

/-- What a condition means, if it says anything. -/
def meaning : Value → Option Meaning
  | .map entries => Connective.all.combined (operatorMeanings entries)
  | _ => none
termination_by structural v => v

/-- The meanings of the operators of a mapping. -/
def operatorMeanings : List (Value × Value) → List Meaning
  | [] => []
  | (key, v) :: rest =>
    (operatorMeaning key v (meaning v) (partMeanings v)).toList ++ operatorMeanings rest
termination_by structural es => es

/-- The meanings of the parts of a connective. -/
def partMeanings : Value → List Meaning
  | .seq items => itemMeanings items
  | _ => []
termination_by structural v => v

def itemMeanings : List Value → List Meaning
  | [] => []
  | v :: rest => (meaning v).toList ++ itemMeanings rest
termination_by structural vs => vs

end

/-- A text that refers to a value: it begins with a dollar sign and is a single word. -/
def IsOperand (text : String) : Prop :=
  text.toList.head? = some '$' ∧ ∀ c ∈ text.toList, c ≠ ' ' ∧ c ≠ '(' ∧ c ≠ ')'

/-- A tree of known operators whose operands are references. Among its parts there may be others,
which are ignored. -/
inductive IsCondition (ignored : Value → Prop) : Value → Prop where
  | ignored {v : Value} (h : ignored v) : IsCondition ignored v
  | connective (c : Connective) {parts : List Value} (filled : parts ≠ [])
      (each : ∀ p ∈ parts, IsCondition ignored p) :
      IsCondition ignored (.map [(.str c.word, .seq parts)])
  | denial {v : Value} (inner : IsCondition ignored v) :
      IsCondition ignored (.map [(.str "not", v)])
  | relation (r : Relation) {left right : String} (first : IsOperand left)
      (second : IsOperand right) :
      IsCondition ignored (.map [(.str r.key, .seq [.str left, .str right])])
  | existence {operand : String} (reference : IsOperand operand) :
      IsCondition ignored (.map [(.str "exists", .str operand)])
  /-- Several operators in one mapping. -/
  | together {entries : List (Value × Value)} (several : 1 < entries.length)
      (each : ∀ e ∈ entries, IsCondition ignored (.map [e])) : IsCondition ignored (.map entries)

section

variable {text : String}

theorem isName_of_isOperand (reference : IsOperand text) : IsName text := by
  obtain ⟨dollar, plain⟩ := reference
  refine ⟨⟨?_, fun c member => ?_⟩, ?_, ?_, ?_⟩
  · rintro rfl
    contradiction
  · obtain ⟨blank, opening, closing⟩ := plain c member
    simp [mark?, blank, opening, closing]
  all_goals
    rintro rfl
    revert dollar
    decide

/-! ## Meanings part by part -/

theorem itemMeanings_eq (items : List Value) : itemMeanings items = items.filterMap meaning := by
  induction items with
  | nil => rfl
  | cons v rest ih =>
      rw [itemMeanings, List.filterMap_cons, ih]
      cases meaning v <;> rfl

theorem meaning_operator (key v : Value) :
    meaning (.map [(key, v)]) = operatorMeaning key v (meaning v) (partMeanings v) := by
  rw [meaning, operatorMeanings, operatorMeanings]
  cases operatorMeaning key v (meaning v) (partMeanings v) with
  | none => rfl
  | some m => exact Connective.combined_singleton .all m

/-- Operators in one mapping hold together. -/
theorem meaning_map (entries : List (Value × Value)) :
    meaning (.map entries) =
      Connective.all.combined (entries.filterMap fun e => meaning (.map [e])) := by
  have parts : operatorMeanings entries = entries.filterMap fun e => meaning (.map [e]) := by
    induction entries with
    | nil => rfl
    | cons e rest ih =>
        rw [operatorMeanings, List.filterMap_cons, meaning_operator, ih]
        cases operatorMeaning e.1 e.2 (meaning e.2) (partMeanings e.2) <;> rfl
  rw [meaning, parts]

theorem meaning_connective (c : Connective) (parts : List Value) :
    meaning (.map [(.str c.word, .seq parts)]) = c.combined (parts.filterMap meaning) := by
  rw [meaning_operator, ← itemMeanings_eq]
  cases c <;> rfl

theorem meaning_denial (v : Value) :
    meaning (.map [(.str "not", v)]) = (meaning v).map fun m truth => !m truth :=
  meaning_operator _ v

theorem meaning_relation (r : Relation) (left right : String) :
    meaning (.map [(.str r.key, .seq [.str left, .str right])]) =
      some fun truth => truth (.relation r left right) := by
  rw [meaning_operator]
  cases r <;> rfl

theorem meaning_existence (operand : String) :
    meaning (.map [(.str "exists", .str operand)]) = some fun truth => truth (.existence operand) :=
  meaning_operator _ _

/-! ## Texts part by part -/

/-- One part makes the same text alone and beside others. -/
@[simp] theorem joined_singleton (word : String) (nested : Bool) (part : String) :
    joined word nested [part] = part := by
  by_cases empty : part.isEmpty
  · have nothing : part = "" := String.isEmpty_iff.mp empty
    simp [joined, nothing]
  · simp [joined, empty]

theorem expression_operator (nested : Bool) (key v : Value) :
    expression nested (.map [(key, v)]) =
      match Operator.ofKey key with
      | .connective word => (alternatives v).map (joined word nested)
      | .negation => (expression true v).map denied
      | .relation sign => related sign v
      | .leading => led key v := by
  have alone (own : Except Unwritable String) :
      (do let part ← own; .ok [part]).map (joined "and" nested) = own := by
    cases own with
    | error e => rfl
    | ok part => exact congrArg Except.ok (joined_singleton "and" nested part)
  rw [expression, operators]
  cases Operator.ofKey key <;> exact alone _

theorem operators_cons (nested : Bool) (e : Value × Value) (rest : List (Value × Value)) :
    operators nested (e :: rest) =
      (do
        let part ← expression nested (.map [e])
        let parts ← operators nested rest
        .ok (part :: parts)) := by
  rw [operators, expression_operator]
  cases Operator.ofKey e.1 <;> rfl

/-- The text of a mapping joins those of its operators. -/
theorem expression_map (nested : Bool) (entries : List (Value × Value)) :
    expression nested (.map entries) =
      (entries.mapM fun e => expression nested (.map [e])).map (joined "and" nested) := by
  have parts : operators nested entries = entries.mapM fun e => expression nested (.map [e]) := by
    induction entries with
    | nil => rfl
    | cons e rest ih =>
        rw [operators_cons, List.mapM_cons, ih]
        rfl
  rw [expression, parts]

theorem partsOf_eq (items : List Value) : partsOf items = items.mapM (expression true) := by
  induction items with
  | nil => rfl
  | cons v rest ih =>
      rw [partsOf, List.mapM_cons, ih]
      rfl

theorem expression_connective (nested : Bool) (c : Connective) (parts : List Value) :
    expression nested (.map [(.str c.word, .seq parts)]) =
      (parts.mapM (expression true)).map (joined c.word nested) := by
  rw [expression_operator, ← partsOf_eq]
  cases c <;> rfl

theorem expression_denial (nested : Bool) (v : Value) :
    expression nested (.map [(.str "not", v)]) = (expression true v).map denied :=
  expression_operator nested _ v

theorem expression_relation (nested : Bool) (r : Relation) (left right : String) :
    expression nested (.map [(.str r.key, .seq [.str left, .str right])]) =
      .ok (left ++ " " ++ r.sign ++ " " ++ right) := by
  rw [expression_operator]
  cases r <;> rfl

theorem expression_existence (nested : Bool) (text : String) :
    expression nested (.map [(.str "exists", .str text)]) = .ok ("exists " ++ text) := by
  rw [expression_operator]
  rfl

end

end FlowDiagram.Transition
