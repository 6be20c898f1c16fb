import FlowDiagram.Definition.Entries
import FlowDiagram.Json.Writer
/-!
# Parameters of a flow

A definition refers to a parameter by `$params.` and a name of ASCII letters, digits and
underscores. References are looked for in the text itself, whatever its language.
-/

namespace FlowDiagram.Parameters

def isNameChar (c : Char) : Bool := c.isAlphanum || c == '_'

/-- The characters in front of a name. -/
def marker : List Char := "$params.".toList

/-- The rest of a text behind a beginning, if it begins so. -/
def behind? : List Char → List Char → Option (List Char)
  | [], cs => some cs
  | _ :: _, [] => none
  | m :: ms, c :: cs => if m = c then behind? ms cs else none

/-- The name in a reference at the beginning of a text. -/
def reference? (cs : List Char) : Option String :=
  (behind? marker cs).bind fun rest =>
    let name := rest.takeWhile isNameChar
    if name.isEmpty then none else some (String.ofList name)

/-- The names of the references in a text, in order. The search goes on behind each reference that
it finds; the number says how many characters still belong to the last one. -/
def referencesFrom : Nat → List Char → List String
  | _, [] => []
  | passed + 1, _ :: cs => referencesFrom passed cs
  | 0, c :: cs =>
    match reference? (c :: cs) with
    | some name => name :: referencesFrom (marker.length + name.length - 1) cs
    | none => referencesFrom 0 cs
termination_by structural _ cs => cs

/-- The names of all references, in order. -/
def references (cs : List Char) : List String := referencesFrom 0 cs

/-- The parameters of a text in the order in which they first appear. -/
def ofText (text : String) : List String := (references text.toList).eraseDups

/-- Parameters without values as a JSON document, one on a line. -/
def toJson : List String → String
  | [] => "\x7b\x7d"
  | names => "\x7b\n" ++ ",\n".intercalate (names.map fun name => "  " ++ Json.quoted name ++ ": \"\"")
      ++ "\n\x7d"

end FlowDiagram.Parameters
