import FlowDiagram.Document.Value
import FlowDiagram.Number.Style
import FlowDiagram.Text.Quoted
/-!
# Writing JSON text

Values are written on one line with a blank after every comma and colon, and in ASCII:
other characters are escaped by their 16-bit units. Numbers, truth values and null can
be keys and are written as texts. Dates and bytes have no JSON form, and neither has an
integer with too many digits.
-/

namespace FlowDiagram.Json

open Document

/-- The kinds of value without a JSON form. -/
inductive Opaque where
  | date
  | moment
  | bytes
  | collection
  deriving DecidableEq, Repr

/-- Why a value cannot be written: it has no JSON form, or one of its keys has none. -/
inductive Unwritable where
  | value (kind : Opaque)
  | key (kind : Opaque)
  /-- An integer with too many digits. -/
  | longInteger
  deriving DecidableEq, Repr

def Unwritable.message : Unwritable → String
  | .value kind =>
    let name := match kind with
      | .date => "date"
      | .moment => "datetime"
      | .bytes => "bytes"
      | .collection => "tuple"
    "Object of type " ++ name ++ " is not JSON serializable"
  | .key kind =>
    let name := match kind with
      | .date => "datetime.date"
      | .moment => "datetime.datetime"
      | .bytes => "bytes"
      | .collection => "tuple"
    "keys must be str, int, float, bool or None, not " ++ name
  | .longInteger => Number.lengthMessage

/-- The escape of a 16-bit unit. -/
def unitEscape (n : Nat) : List Char := '\\' :: 'u' :: Text.hex 4 n

/-- A character inside a JSON string. -/
def escaped (c : Char) : List Char :=
  if c = '"' ∨ c = '\\' then ['\\', c]
  else if c = '\n' then ['\\', 'n']
  else if c = '\r' then ['\\', 'r']
  else if c = '\t' then ['\\', 't']
  else if c = '\x08' then ['\\', 'b']
  else if c = '\x0c' then ['\\', 'f']
  else if ' ' ≤ c ∧ c ≤ '~' then [c]
  else if c.toNat < 0x10000 then unitEscape c.toNat
  else
    let n := c.toNat - 0x10000
    unitEscape (0xD800 + n / 0x400) ++ unitEscape (0xDC00 + n % 0x400)

def quoted (s : String) : String :=
  String.ofList ('"' :: s.toList.flatMap escaped ++ ['"'])

def truth (b : Bool) : String := if b then "true" else "false"

/-- The digits of an integer. -/
def integerText (n : Int) : Except Unwritable String :=
  if Number.isShort n then .ok (toString n) else .error .longInteger

/-- The text of a key. -/
def keyText : Value → Except Unwritable String
  | .null => .ok "null"
  | .bool b => .ok (truth b)
  | .int n => integerText n
  | .float x => .ok (Number.Style.document.render x)
  | .str s => .ok s
  | .date _ => .error (.key .date)
  | .moment _ => .error (.key .moment)
  | .bytes _ => .error (.key .bytes)
  | .pair _ _ | .seq _ | .map _ => .error (.key .collection)

mutual

/-- The JSON text of a value, or the first part of it that has none. -/
def write : Value → Except Unwritable String
  | .null => .ok "null"
  | .bool b => .ok (truth b)
  | .int n => integerText n
  | .float x => .ok (Number.Style.document.render x)
  | .str s => .ok (quoted s)
  | .bytes _ => .error (.value .bytes)
  | .date _ => .error (.value .date)
  | .moment _ => .error (.value .moment)
  | .pair k v => do
    let first ← write k
    let second ← write v
    .ok ("[" ++ first ++ ", " ++ second ++ "]")
  | .seq items => do
    let texts ← writeItems items
    .ok ("[" ++ ", ".intercalate texts ++ "]")
  | .map entries => do
    let texts ← writeEntries entries
    .ok ("\x7b" ++ ", ".intercalate texts ++ "\x7d")
termination_by structural v => v

def writeItems : List Value → Except Unwritable (List String)
  | [] => .ok []
  | v :: rest => do
    let text ← write v
    let texts ← writeItems rest
    .ok (text :: texts)
termination_by structural vs => vs

/-- The texts of the entries of a mapping; a key is looked at before its value. -/
def writeEntries : List (Value × Value) → Except Unwritable (List String)
  | [] => .ok []
  | (k, v) :: rest => do
    let key ← keyText k
    let text ← write v
    let texts ← writeEntries rest
    .ok ((quoted key ++ ": " ++ text) :: texts)
termination_by structural es => es

end

end FlowDiagram.Json
