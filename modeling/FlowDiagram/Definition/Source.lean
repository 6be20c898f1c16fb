import FlowDiagram.Definition.Reading
import FlowDiagram.Json.Reader
import FlowDiagram.Yaml.Reader
/-!
# Definitions from texts

A text is read as JSON or YAML. Without a choice it is read as JSON, and as YAML if it
is none. A text that breaks the grammar, or whose structure is wrong, gives the flow without
nodes, so that there is always something to show. Only scalars that are not what their
kind announces, such as dates that the calendar does not have or integers with too many
digits, are reported, and so is a text with something that no value is.
-/

namespace FlowDiagram.Definition

open Document

inductive Language where
  | json
  | yaml
  deriving DecidableEq, Repr

def Language.ofName? : String → Option Language
  | "json" => some .json
  | "yaml" => some .yaml
  | _ => none

/-- Why a text holds no document. -/
inductive LoadFault where
  | json (fault : Json.Fault Nat)
  | yaml (fault : Yaml.Fault)
  deriving DecidableEq, Repr

namespace LoadFault

/-- The text breaks the grammar of its language. -/
def isMalformed : LoadFault → Bool
  | .json (.malformed _) | .yaml .malformed => true
  | _ => false

/-- What the text holds and no value is. -/
def foreign? : LoadFault → Option Foreign
  | .json (.foreign part) | .yaml (.foreign part) => some part
  | _ => none

def message : LoadFault → String
  | .json (.malformed _) => Yaml.Fault.malformed.message
  | .json (.longInteger digits) => Number.digitsMessage digits
  | .json (.foreign part) => part.message
  | .yaml fault => fault.message

end LoadFault

/-- The document in a text. -/
def load (text : String) (language : Option Language) : Except LoadFault Value :=
  let cs := text.toList
  let yaml := (Yaml.read cs).mapError .yaml
  match language with
  | some .json => (Json.read cs).mapError .json
  | some .yaml => yaml
  | none =>
    match Json.read cs with
    | .ok v => .ok v
    | .error (.malformed _) => yaml
    | .error fault => .error (.json fault)

/-- A text without anything but blanks. -/
def isBlankText (text : String) : Bool := text.toList.all Text.isBlank

def Flow.parse (text : String) (language : Option Language) : Except LoadFault Flow :=
  if isBlankText text then .ok .empty
  else
    match load text language with
    | .ok v => .ok ((Flow.ofValue? v).getD .empty)
    | .error fault => if fault.isMalformed then .ok .empty else .error fault

/-- Why a source is refused. -/
inductive SourceFault where
  /-- The source is no text but a value of the named type. -/
  | notText (type : String)
  /-- There is no language of this name. -/
  | unknownLanguage (name : String)
  /-- A scalar in the text is not what its kind announces, or the text holds what no value
  is. -/
  | unread (fault : LoadFault)
  deriving DecidableEq, Repr

def SourceFault.message : SourceFault → String
  | .notText type => "Definition text must be str, got " ++ type
  | .unknownLanguage name => "Unsupported definition syntax: " ++ name
  | .unread fault => fault.message

def typeName : Value → String
  | .null => "NoneType"
  | .bool _ => "bool"
  | .int _ => "int"
  | .float _ => "float"
  | .str _ => "str"
  | .bytes _ => "bytes"
  | .date _ => "date"
  | .moment _ => "datetime"
  | .pair _ _ => "tuple"
  | .seq _ => "list"
  | .map _ => "dict"

/-- The language that a value chooses; null leaves the choice open. -/
def chosenLanguage : Value → Except SourceFault (Option Language)
  | .null => .ok none
  | .str s =>
    match Language.ofName? s with
    | some l => .ok (some l)
    | none => .error (.unknownLanguage s)
  | v => .error (.unknownLanguage v.display)

/-- The flow that a source defines, where text and language may be any values. -/
def Flow.ofSource (text language : Value) : Except SourceFault Flow :=
  match text with
  | .str s => do
    let language ← chosenLanguage language
    (Flow.parse s language).mapError .unread
  | v => .error (.notText (typeName v))

end FlowDiagram.Definition
