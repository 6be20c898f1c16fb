import FlowDiagram.Proofs.Json.Writing
import FlowDiagram.Transition.Basic
/-!
# When cases have labels

The label of a case shows operands: those of `cond_eq`, else that of `cond_gt`, else all that
stand in the expression at any depth. An operand is shown as it is if it is a text, and as JSON
otherwise, and so is a number in place of an operator. So a case has a label exactly if each
operand that it shows has a form in JSON (`exists_caseLabel_iff`); nothing else about a case
matters, and no label is empty (`caseLabel_ne_empty`).

Transitions can be derived exactly if the cases that lead on have labels (`exists_ofScope_iff`).
-/

namespace FlowDiagram.Transition

open Document Definition Json

/-! ## Operands -/

/-- The operands of a relation, if there are two of them. -/
def pairOperands : Value → List Value
  | .seq [left, right] => [left, right]
  | _ => []

/-- A number that stands in place of an operator is shown like an operand. -/
def wordOperands : Value → List Value
  | .int n => [.int n]
  | _ => []

mutual

/-- The operands that the text of an expression shows. -/
def operandsOf : Value → List Value
  | .map entries => operatorOperands entries
  | _ => []
termination_by structural v => v

def operatorOperands : List (Value × Value) → List Value
  | [] => []
  | (key, v) :: rest =>
    (match Operator.ofKey key with
      | .connective _ => partOperands v
      | .negation => operandsOf v
      | .relation _ => pairOperands v
      | .leading => wordOperands key ++ [v]) ++ operatorOperands rest
termination_by structural es => es

/-- The operands in the parts of a connective. -/
def partOperands : Value → List Value
  | .seq items => itemOperands items
  | _ => []
termination_by structural v => v

def itemOperands : List Value → List Value
  | [] => []
  | v :: rest => operandsOf v ++ itemOperands rest
termination_by structural vs => vs

end

/-- The operands that the label of a case shows. -/
def caseOperands (c : Case) : List Value :=
  match c.field "cond_eq", c.field "cond_gt" with
  | .null, .null => operandsOf (c.field "expr")
  | .null, limit => [limit]
  | equal, _ => [equal]

/-- A case that can be shown: each of its operands has a form in JSON. -/
def Describable (c : Case) : Prop := ∀ v ∈ caseOperands c, v.HasJsonForm

/-! ## Texts -/

section

variable {v : Value} {nested : Bool} {c : Case} {index : Int} {label : String}

theorem exists_operand_iff : (∃ text, operand v = .ok text) ↔ v.HasJsonForm := by
  cases v with
  | str s => exact ⟨fun _ => .str s, fun _ => ⟨s, rfl⟩⟩
  | _ => exact exists_write_iff

theorem exists_related_iff (sign : String) :
    (∃ text, related sign v = .ok text) ↔ ∀ w ∈ pairOperands v, w.HasJsonForm := by
  rw [related, exists_map_iff]
  unfold operandPair pairOperands
  split
  · rw [exists_both_iff, exists_operand_iff, exists_operand_iff]
    simp
  · simp

theorem exists_led_iff {key : Value} :
    (∃ text, led key v = .ok text) ↔ ∀ w ∈ wordOperands key ++ [v], w.HasJsonForm := by
  have word : (∃ text, leadingWord key = .ok text) ↔ ∀ w ∈ wordOperands key, w.HasJsonForm := by
    cases key with
    | int n =>
        rw [wordOperands, List.forall_mem_singleton, Value.hasJsonForm_int]
        exact exists_integerText_iff
    | _ => simp [leadingWord, wordOperands]
  rw [led, exists_both_iff, word, exists_operand_iff, List.forall_mem_append,
    List.forall_mem_singleton]

mutual

/-- An expression has a text exactly if its operands can be shown. -/
theorem exists_expression_iff : ∀ {nested : Bool} {v : Value},
    (∃ text, expression nested v = .ok text) ↔ ∀ w ∈ operandsOf v, w.HasJsonForm
  | nested, .map entries => by
      rw [expression, exists_map_iff, exists_operators_iff, operandsOf]
  | _, .null | _, .bool _ | _, .int _ | _, .float _ | _, .str _ | _, .bytes _ | _, .date _
  | _, .moment _ | _, .pair _ _ | _, .seq _ => by simp [expression, operandsOf]

theorem exists_operators_iff : ∀ {nested : Bool} {entries : List (Value × Value)},
    (∃ texts, operators nested entries = .ok texts) ↔
      ∀ w ∈ operatorOperands entries, w.HasJsonForm
  | _, [] => by simp [operators, operatorOperands]
  | nested, (key, v) :: rest => by
      rw [operators, operatorOperands, List.forall_mem_append, ← exists_operators_iff]
      cases Operator.ofKey key with
      | connective word =>
          exact exists_both_iff.trans (and_congr_left' (exists_map_iff.trans exists_alternatives_iff))
      | negation =>
          exact exists_both_iff.trans (and_congr_left' (exists_map_iff.trans exists_expression_iff))
      | relation sign => exact exists_both_iff.trans (and_congr_left' (exists_related_iff sign))
      | leading => exact exists_both_iff.trans (and_congr_left' exists_led_iff)

theorem exists_alternatives_iff : ∀ {v : Value},
    (∃ texts, alternatives v = .ok texts) ↔ ∀ w ∈ partOperands v, w.HasJsonForm
  | .seq items => by rw [alternatives, partOperands, exists_partsOf_iff]
  | .null | .bool _ | .int _ | .float _ | .str _ | .bytes _ | .date _ | .moment _ | .pair _ _
  | .map _ => by simp [alternatives, partOperands]

theorem exists_partsOf_iff : ∀ {items : List Value},
    (∃ texts, partsOf items = .ok texts) ↔ ∀ w ∈ itemOperands items, w.HasJsonForm
  | [] => by simp [partsOf, itemOperands]
  | v :: rest => by
      rw [partsOf, exists_both_iff, exists_expression_iff, exists_partsOf_iff, itemOperands,
        List.forall_mem_append]

end

/-- A case has a label exactly if the operands that it shows can be written. -/
theorem exists_caseLabel_iff :
    (∃ label, caseLabel c index = .ok label) ↔ Describable c := by
  rw [Describable, caseOperands, caseLabel]
  generalize c.field "cond_eq" = equal
  generalize c.field "cond_gt" = limit
  have alone (sign : String) (v : Value) :
      (∃ label, (operand v).map (sign ++ ·) = .ok label) ↔ ∀ w ∈ [v], w.HasJsonForm := by
    rw [exists_map_iff, exists_operand_iff, List.forall_mem_singleton]
  cases equal with
  | null =>
      cases limit with
      | null => exact exists_map_iff.trans exists_expression_iff
      | _ => exact alone "> " _
  | _ => exact alone "== " _

theorem caseLabel_ne_empty (made : caseLabel c index = .ok label) : label ≠ "" := by
  unfold caseLabel at made
  split at made
  · obtain ⟨text, -, made⟩ := bind_eq_ok_iff.mp made
    cases made
    split
    · simp [numbered]
    · next filled => simpa using filled
  · obtain ⟨text, -, rfl⟩ := map_eq_ok_iff.mp made
    simp
  · obtain ⟨text, -, rfl⟩ := map_eq_ok_iff.mp made
    simp

end

/-! ## Transitions -/

section

variable {cs : List Case} {key : String} {index : Int} {spec : NodeSpec} {scope : Flow}

/-- The cases of a node; a node that mentions none has none. -/
def casesOf (spec : NodeSpec) : List Case := spec.cases.value?.getD []

theorem exists_labelled_iff :
    (∃ list, labelled cs index = .ok list) ↔ ∀ c ∈ cs, Describable c := by
  induction cs generalizing index with
  | nil => simp [labelled]
  | cons c rest ih =>
      rw [labelled, exists_both_iff, exists_caseLabel_iff, ih, List.forall_mem_cons]

theorem exists_caseLabels_iff :
    (∃ list, caseLabels spec = .ok list) ↔ ∀ c ∈ casesOf spec, Describable c :=
  exists_map_iff.trans exists_labelled_iff

/-- Among these cases each one that leads to some node has a label. -/
def LeadsDescribed (cs : List Case) : Prop :=
  ∀ c ∈ cs, (nonEmpty c.action.value?).isSome → Describable c

theorem exists_ofCases_iff : (∃ ts, ofCases key cs index = .ok ts) ↔ LeadsDescribed cs := by
  induction cs generalizing index with
  | nil => simp [ofCases, LeadsDescribed]
  | cons c rest ih =>
      have later := @ih (index + 1)
      rw [LeadsDescribed, List.forall_mem_cons, ← LeadsDescribed, ← later, ofCases]
      split
      · next nowhere => simp [nowhere]
      · next somewhere =>
          rw [exists_both_iff, exists_caseLabel_iff]
          simp [somewhere]

/-- A node that is no choice, or one whose cases have labels where they lead to some node. -/
def Branches (spec : NodeSpec) : Prop := spec.kind = .choice → LeadsDescribed (casesOf spec)

theorem exists_ofNode_iff : (∃ ts, ofNode key spec = .ok ts) ↔ Branches spec := by
  rw [ofNode, Branches]
  split
  · next choice =>
      simp only [choice, true_imp_iff]
      exact exists_map_iff.trans exists_ofCases_iff
  · next other => simp [other]

theorem exists_implied_iff {specs : List (String × NodeSpec)} :
    (∃ ts, implied specs = .ok ts) ↔ ∀ entry ∈ specs, Branches entry.2 := by
  induction specs with
  | nil => simp [implied]
  | cons entry rest ih =>
      rw [implied, exists_both_iff, exists_ofNode_iff, ih, List.forall_mem_cons]

/-- The transitions of a scope can be derived exactly if it lists its edges or if the cases of
its nodes have labels where they lead on. -/
theorem exists_ofScope_iff :
    (∃ ts, ofScope scope = .ok ts) ↔ isExplicit scope ∨ ∀ entry ∈ scope.entries, Branches entry.2 := by
  rw [ofScope, isExplicit]
  cases scope.edges.value? with
  | some edges => simp
  | none => simp [exists_implied_iff]

end

end FlowDiagram.Transition
