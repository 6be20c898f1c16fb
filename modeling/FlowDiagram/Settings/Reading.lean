import FlowDiagram.Settings.Basic
import FlowDiagram.Text.Blank
import FlowDiagram.Text.Digit
/-!
# Settings from documents and environments

A document gives measures as numbers, as texts of numbers or as truth values. In an
environment all values are texts; there digits of every script count, and a text that is
no number is as good as none.
-/

namespace FlowDiagram.Settings

open Document Number Text

/-- Underscores may group the digits of a number: no two stand together, and none stands
at an end. -/
def ungrouped? (cs : List Char) : Option (List Char) :=
  let doubled := (cs.zip cs.tail).any fun (a, b) => a == '_' && b == '_'
  if cs.head? = some '_' ∨ cs.getLast? = some '_' ∨ doubled ∨ '_' ∉ cs then none
  else some (cs.filter (· ≠ '_'))

/-- A number in the text of a document. White space may surround it, unless its digits
are grouped. -/
def numberOfText? (text : String) : Option Float :=
  let cs := text.toList
  match read? (trim isWhite cs) with
  | some x => some x
  | none => (ungrouped? cs).bind read?

/-- The number that a value of a document stands for. An integer too large for a double
stands for none. -/
def numberOf? : Value → Option Float
  | .bool b => some (if b then 1.0 else 0.0)
  | .int n =>
    let x := nearestInt n
    if isFinite x then some x else none
  | .float x => some x
  | .str s => numberOfText? s
  | _ => none

/-- Settings from the entries of a document. Measures without a usable number are named,
and those that break their bounds. -/
def ofValue (v : Value) : Except Refused Settings :=
  let admitted? (key : Key) (w : Value) : Option Float := (numberOf? w).filter key.bound.admits
  let refused (key : Key) : Bool :=
    match v.get? key.name with
    | some w => (admitted? key w).isNone
    | none => false
  let broken := Key.all.filter refused
  if broken.isEmpty then replaced fun key => (v.get? key.name).bind (admitted? key)
  else .error broken

/-- A digit of any script as an ASCII digit; other characters stay. -/
def asciiDigit (c : Char) : Char :=
  match decimalDigit? c with
  | some n => Char.ofNat ('0'.toNat + n)
  | none => c

/-- Underscores are left out where a digit stands on both sides. -/
def withoutGrouping? : Option Char → List Char → Option (List Char)
  | _, [] => some []
  | before, '_' :: c :: cs =>
    if (before.any Char.isDigit) && c.isDigit then
      (withoutGrouping? (some c) cs).map (c :: ·)
    else none
  | _, ['_'] => none
  | _, c :: cs => (withoutGrouping? (some c) cs).map (c :: ·)

/-- A number in a text of the environment. -/
def numberOfVariable? (text : String) : Option Float :=
  (withoutGrouping? none ((trim isWhite text.toList).map asciiDigit)).bind read?

/-- Settings from the texts of an environment. -/
def ofEnvironment (environment : String → Option String) :
    Except Refused Settings :=
  replaced fun key => (key.setBy?.bind environment).bind numberOfVariable?

end FlowDiagram.Settings
