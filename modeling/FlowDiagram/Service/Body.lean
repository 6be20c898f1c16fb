import FlowDiagram.Json.Reader
import FlowDiagram.Number.Reading
import FlowDiagram.Service.Answer
import FlowDiagram.Text.Blank
import FlowDiagram.Text.Wide
/-!
# Bodies of requests

The body of a request is a JSON object. Its fields are not converted: texts must be
texts. Only truth values may also be given by words and numbers. All fields that are
refused are named, in the order in which they are declared.

A body that is read but not understood is refused with the reasons. One that cannot be read
at all has no reasons.
-/

namespace FlowDiagram.Service

open Document Number Text

/-- A part of a request as it was understood. -/
abbrev Part (α : Type) := Except Refusal α

/-- The refusal of a part, if it is refused. -/
def refusal {α : Type} : Part α → List Refusal
  | .ok _ => []
  | .error r => [r]

/-- A field of a body that is refused. -/
def refusedField (name : String) (reason : Reason) (input : Value) : Refusal :=
  ⟨["body", name], reason, input⟩

/-- A text in a field. -/
def textIn (name : String) : Value → Part String
  | .str s => .ok s
  | v => .error (refusedField name .noText v)

/-- A field that must hold a text. -/
def requiredText (name : String) (body : Value) : Part String :=
  match body.get? name with
  | some v => textIn name v
  | none => .error (refusedField name .missing body)

/-- A field that holds a text, with the text that counts without it. -/
def textOr (name other : String) (body : Value) : Part String :=
  match body.get? name with
  | some v => textIn name v
  | none => .ok other

/-- A field that may hold a text. -/
def optionalText (name : String) (body : Value) : Part (Option String) :=
  match body.get? name with
  | some .null | none => .ok none
  | some v => (textIn name v).map some

/-- Words for truth values, in any case. -/
def truthWords : List (String × Bool) :=
  [("0", false), ("f", false), ("n", false), ("no", false), ("off", false), ("false", false),
    ("1", true), ("t", true), ("y", true), ("on", true), ("yes", true), ("true", true)]

/-- The truth value that an integer stands for. -/
def truthOfInt? (n : Int) : Option Bool := if n = 0 then some false else if n = 1 then some true else none

/-- The truth value that a value names. Integers outside 64 bits name none, and for a double
the least one counts as outside. -/
def truthOf (v : Value) : Except Reason Bool :=
  let named (b : Option Bool) : Except Reason Bool :=
    match b with
    | some b => .ok b
    | none => .error .otherTruth
  match v with
  | .bool b => .ok b
  | .str s => named (truthWords.lookup (String.ofList (s.toList.map Char.toLower)))
  | .int n => if fitsWord n then named (truthOfInt? n) else .error .noTruth
  | .float x =>
    match integral? x with
    | some n =>
      if fitsWord n && fitsWord (-n) then named (truthOfInt? n) else .error .noTruth
    | none => .error .noTruth
  | _ => .error .noTruth

/-- A field that holds a truth value, with the one that counts without it. -/
def truthOr (name : String) (other : Bool) (body : Value) : Part Bool :=
  match body.get? name with
  | some v => (truthOf v).mapError fun reason => refusedField name reason v
  | none => .ok other

/-- The ways to encode the text of a body. -/
inductive Encoding where
  /-- Units of one byte. A mark at the beginning is no part of the text. -/
  | narrow
  /-- Units of two bytes. -/
  | double (highFirst : Bool)
  /-- Units of four bytes. -/
  | fourfold (highFirst : Bool)
  deriving DecidableEq, Repr

/-- The encoding that the first bytes suggest, for a text that begins with two characters
from the first 128: where there are zeros among them, the units are wide. -/
def Encoding.ofBytes : List UInt8 → Encoding
  | [a, b] => if a = 0 then .double true else if b = 0 then .double false else .narrow
  | a :: b :: c :: d :: _ =>
    if a = 0 then if b = 0 then .fourfold true else .double true
    else if b = 0 then if c = 0 ∧ d = 0 then .fourfold false else .double false
    else .narrow
  | _ => .narrow

/-- Why a body is refused. -/
inductive BodyFault where
  /-- The bytes of the body are no text, or a number in it has too many digits. -/
  | unread
  | foreign (part : Foreign)
  | refused (rs : List Refusal)

def BodyFault.ofWide : WideFault → BodyFault
  | .broken => .unread
  | .half => .foreign .half

/-- The text in a body. -/
def bodyText (body : String) : Except BodyFault (List Char) :=
  let bytes := body.toUTF8.toList
  match Encoding.ofBytes bytes with
  | .narrow =>
    match body.toList with
    | '\uFEFF' :: cs => .ok cs
    | cs => .ok cs
  | .double highFirst => (decode16 highFirst bytes).mapError .ofWide
  | .fourfold highFirst => (decode32 highFirst bytes).mapError .ofWide

/-- The object in a body. -/
def bodyObject (body : Option String) : Except BodyFault Value :=
  let missing : Refusal := ⟨["body"], .missing, .null⟩
  let body := body.getD ""
  if body.isEmpty then .error (.refused [missing])
  else
    match bodyText body with
    | .error fault => .error fault
    | .ok text =>
      match Json.read text with
      | .error (.malformed offset) =>
        .error (.refused [⟨["body", toString offset], .noJson, .record []⟩])
      | .error (.longInteger _) => .error .unread
      | .error (.foreign part) => .error (.foreign part)
      | .ok .null => .error (.refused [missing])
      | .ok (.map entries) => .ok (.map entries)
      | .ok v => .error (.refused [⟨["body"], .noMapping, v⟩])

/-- A body read field by field. -/
def readBody {α : Type} (fields : Value → Except (List Refusal) α) (body : Option String) :
    Except BodyFault α := do
  (fields (← bodyObject body)).mapError .refused

structure RenderRequest where
  definition : String
  language : Option String
  layout : String
  expanded : Bool

def RenderRequest.ofFields (body : Value) : Except (List Refusal) RenderRequest :=
  let definition := requiredText "definition" body
  let language := optionalText "syntax" body
  let layout := textOr "layout" "hierarchical" body
  let expanded := truthOr "expandSubflows" true body
  match definition, language, layout, expanded with
  | .ok definition, .ok language, .ok layout, .ok expanded =>
    .ok ⟨definition, language, layout, expanded⟩
  | _, _, _, _ =>
    .error (refusal definition ++ refusal language ++ refusal layout ++ refusal expanded)

/-- The field of a request for parameters. -/
def definitionOf (body : Value) : Except (List Refusal) String :=
  (requiredText "definition" body).mapError ([·])

structure FlowRequest where
  name : String
  description : Option String

def FlowRequest.ofFields (body : Value) : Except (List Refusal) FlowRequest :=
  let name := requiredText "name" body
  let description := optionalText "description" body
  match name, description with
  | .ok name, .ok description => .ok ⟨name, description⟩
  | _, _ => .error (refusal name ++ refusal description)

structure VersionRequest where
  definition : String
  status : String

def VersionRequest.ofFields (body : Value) : Except (List Refusal) VersionRequest :=
  let definition := requiredText "definition" body
  let status := textOr "status" "draft" body
  match definition, status with
  | .ok definition, .ok status => .ok ⟨definition, status⟩
  | _, _ => .error (refusal definition ++ refusal status)

/-- What stands behind the zeros at the beginning of a number, between which underscores do
not count. Another sign may stand there. One zero or underscore is left if there is
nothing else, or only a fraction. -/
def withoutLeadingZeros? : List Char → Option (List Char)
  | [] => none
  | c :: cs =>
    if '1' ≤ c ∧ c ≤ '9' then some (c :: cs)
    else if c = '0' then
      let zeros := (c :: cs).takeWhile fun d => d = '0' ∨ d = '_'
      let last := zeros.drop (zeros.length - 1)
      match (c :: cs).dropWhile fun d => d = '0' ∨ d = '_' with
      | [] => some last
      | d :: ds =>
        if d = '.' then some (last ++ d :: ds)
        else if d = '-' ∨ d.isDigit then some (d :: ds)
        else none
    else none

/-- The text without a fraction of zeros. -/
def withoutZeroFraction (cs : List Char) : List Char :=
  let places := (cs.dropWhile (· ≠ '.')).drop 1
  if !places.isEmpty && places.all (· = '0') then cs.takeWhile (· ≠ '.') else cs

/-- The text without underscores, if they stand only between other characters, one at a
time. -/
def withoutUnderscores (cs : List Char) : List Char :=
  let doubled := (cs.zip cs.tail).any fun (a, b) => a == '_' && b == '_'
  if cs.head? = some '_' ∨ cs.getLast? = some '_' ∨ doubled then cs else cs.filter (· ≠ '_')

/-- A minus sign, or none, and digits without a zero in front. -/
def plainInteger? (cs : List Char) : Option Int :=
  let (negative, ds) := match cs with
    | '-' :: ds => (true, ds)
    | ds => (false, ds)
  if ds.isEmpty ∨ !ds.all Char.isDigit ∨ (ds.head? = some '0' ∧ 1 < ds.length) then none
  else some (if negative then -(ofDigits ds : Int) else ofDigits ds)

/-- The integer in a part of a path. -/
def integerIn? (s : String) : Option Int :=
  let (negative, body) := splitSign (trim isWhite s.toList)
  (withoutLeadingZeros? body).bind fun cs =>
    let cs := withoutUnderscores (withoutZeroFraction cs)
    plainInteger? (if negative then '-' :: cs else cs)

end FlowDiagram.Service
