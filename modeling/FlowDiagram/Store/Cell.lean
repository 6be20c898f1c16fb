import FlowDiagram.Definition.Source
import FlowDiagram.Number.Style
import FlowDiagram.Store.Fault
/-!
# Cells

A value in a statement is null, an integer of 64 bits, a double or a text. A column of
texts keeps a number as its text, and a version is compared as a number, whatever way it
is given.
-/

namespace FlowDiagram.Store

open Document Number

/-- A value in a statement. -/
inductive Cell where
  | null
  | int (n : Int)
  | real (x : Float)
  | text (s : String)

namespace Cell

/-- The cell for a value at a position of a statement. -/
def ofValue (position : Nat) : Value → Except Fault Cell
  | .null => .ok .null
  | .bool b => .ok (.int (if b then 1 else 0))
  | .int n => if fitsWord n then .ok (.int n) else .error .tooLarge
  | .float x => .ok (.real x)
  | .str s => .ok (.text s)
  | v => .error (.unsupported position (Definition.typeName v))

/-- What a column of texts holds of a cell. The undefined number is null. -/
def text? : Cell → Option String
  | .null => none
  | .int n => some (toString n)
  | .real x => if isUndefined x then none else some (Style.column.render x)
  | .text s => some s

/-- Blanks around the text of a number. -/
def isNumberBlank (c : Char) : Bool := c == ' ' || ('\t' ≤ c && c ≤ '\r')

/-- From this significand on, the digits of a number are passed over. -/
def significandLimit : Nat := 922337203685477579

/-- The significand of a number and the power of ten it counts. -/
def significand (whole fraction : List Char) : Nat × Int :=
  let (n, e) := whole.foldl (fun (n, e) c =>
    if n < significandLimit then (10 * n + digitValue c, e) else (n, e + 1)) (0, (0 : Int))
  fraction.foldl (fun (n, e) c =>
    if n < significandLimit then (10 * n + digitValue c, e - 1) else (n, e)) (n, e)

/-- The text holds the number of a version and nothing else. A number with a fraction is
rounded to a double, by way of more bits. -/
def isVersionText (version : Nat) (s : String) : Bool :=
  let (negative, body) := splitSign (Text.trim isNumberBlank s.toList)
  match parts? body with
  | none => false
  | some (whole, fraction, exponent) =>
    let (n, places) := significand whole fraction
    let e := places + exponent
    if n = 0 then version == 0
    else if negative || 20 < e || e < -40 then false
    else if 0 ≤ e then n * scale 10 e == version
    else (Extended.nearest n (scale 10 (-e)) 0).toDouble.isNat version

/-- The cell is the number of a version. -/
def isVersion (version : Nat) : Cell → Bool
  | .null => false
  | .int n => n == version
  | .real x => integral? x == some (version : Int)
  | .text s => isVersionText version s

end Cell

end FlowDiagram.Store
