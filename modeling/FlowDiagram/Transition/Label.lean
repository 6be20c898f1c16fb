import FlowDiagram.Definition.Basic
import FlowDiagram.Document.Display
import FlowDiagram.Json.Writer
/-!
# Condition labels

The condition of a case is written as infix text. Inside `and`, `or` and `not` every
compound part stands in parentheses. Parts that make no sense are left out; when nothing
remains the case is named by its number.

An operand that is no text is written as JSON, so a label fails exactly where one of its
operands has no JSON form, or where a number in place of a word has none.
-/

namespace FlowDiagram.Transition

open Document Definition Json

/-- An operator of an expression. -/
inductive Operator where
  /-- All or some of several parts. -/
  | connective (word : String)
  | negation
  /-- A sign between two operands. -/
  | relation (sign : String)
  /-- Any other word in front of one operand. -/
  | leading
  deriving DecidableEq, Repr

/-- The sign of a relation. -/
def relationSign? (name : String) : Option String :=
  [("eq", "=="), ("ne", "!="), ("gt", ">"), ("lt", "<"), ("ge", ">="), ("le", "<="), ("in", "in"),
    ("contains", "contains")].lookup name

def Operator.ofKey : Value → Operator
  | .str name =>
    if name = "and" ∨ name = "or" then .connective name
    else if name = "not" then .negation
    else
      match relationSign? name with
      | some sign => .relation sign
      | none => .leading
  | _ => .leading

/-- The text of an operand. -/
def operand : Value → Except Unwritable String
  | .str s => .ok s
  | v => write v

/-- The word that a key is in front of an operand. -/
def leadingWord : Value → Except Unwritable String
  | .int n => integerText n
  | key => .ok key.display

/-- An operand behind a key. -/
def led (key v : Value) : Except Unwritable String := do
  let word ← leadingWord key
  let text ← operand v
  .ok (word ++ " " ++ text)

/-- The texts of exactly two operands. -/
def operandPair : Value → Except Unwritable (Option (String × String))
  | .seq [a, b] => do
    let left ← operand a
    let right ← operand b
    .ok (some (left, right))
  | _ => .ok none

/-- Non-empty parts joined by a word; several parts stand in parentheses inside another
expression. -/
def joined (word : String) (nested : Bool) (parts : List String) : String :=
  let parts := parts.filter (!·.isEmpty)
  let text := (" " ++ word ++ " ").intercalate parts
  if nested && 1 < parts.length then "(" ++ text ++ ")" else text

/-- The denial of an expression. -/
def denied (inner : String) : String := if inner.isEmpty then "" else "not (" ++ inner ++ ")"

/-- A relation between two operands; with any other number of them it makes no sense. -/
def related (sign : String) (v : Value) : Except Unwritable String :=
  (operandPair v).map fun
    | some (left, right) => left ++ " " ++ sign ++ " " ++ right
    | none => ""

mutual

/-- The text of an expression. Several operators in one mapping hold together. -/
def expression (nested : Bool) : Value → Except Unwritable String
  | .map entries => (operators nested entries).map (joined "and" nested)
  | _ => .ok ""
termination_by structural v => v

/-- The texts of the operators of a mapping. -/
def operators (nested : Bool) : List (Value × Value) → Except Unwritable (List String)
  | [] => .ok []
  | (key, v) :: rest => do
    let part ← match Operator.ofKey key with
      | .connective word => (alternatives v).map (joined word nested)
      | .negation => (expression true v).map denied
      | .relation sign => related sign v
      | .leading => led key v
    let parts ← operators nested rest
    .ok (part :: parts)
termination_by structural es => es

/-- The texts of the parts of a connective. -/
def alternatives : Value → Except Unwritable (List String)
  | .seq items => partsOf items
  | _ => .ok []
termination_by structural v => v

/-- The texts of several expressions inside another one. -/
def partsOf : List Value → Except Unwritable (List String)
  | [] => .ok []
  | v :: rest => do
    let part ← expression true v
    let parts ← partsOf rest
    .ok (part :: parts)
termination_by structural vs => vs

end

/-- The name of a case without a condition. -/
def numbered (index : Int) : String := "Case " ++ toString (index + 1)

def caseLabel (c : Case) (index : Int) : Except Unwritable String := do
  match c.field "cond_eq", c.field "cond_gt" with
  | .null, .null =>
    let text ← expression false (c.field "expr")
    .ok (if text.isEmpty then numbered index else text)
  | .null, limit => (operand limit).map ("> " ++ ·)
  | equal, _ => (operand equal).map ("== " ++ ·)

end FlowDiagram.Transition
