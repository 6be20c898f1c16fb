import FlowDiagram.Number.Reading
import FlowDiagram.Text.Quoted
import FlowDiagram.Text.Utf8
/-!
# Targets of requests

A target is a path and a query. Steps to the same or the enclosing place are resolved in
the path before any character is decoded; a decoded slash separates parts like any other.
A path is decoded once where it is sent and once where it arrives. A text with control
characters names no target.
-/

namespace FlowDiagram.Service

/-- The pieces of a text between the occurrences of a character. -/
def split (mark : Char) : List Char → List (List Char)
  | [] => [[]]
  | c :: cs =>
    if c = mark then [] :: split mark cs
    else
      match split mark cs with
      | piece :: rest => (c :: piece) :: rest
      | [] => [[c]]

/-- The text in front of a character, and the text behind its first occurrence. -/
def cut (mark : Char) (cs : List Char) : List Char × List Char :=
  (cs.takeWhile (· ≠ mark), (cs.dropWhile (· ≠ mark)).drop 1)

/-- The bytes of a text in which bytes may be given by their hexadecimal digits. -/
def percentBytes : List Char → List UInt8
  | [] => []
  | '%' :: a :: b :: cs =>
    match Number.hexValue? a, Number.hexValue? b with
    | some m, some n => UInt8.ofNat (16 * m + n) :: percentBytes cs
    | _, _ => '%'.toNat.toUInt8 :: percentBytes (a :: b :: cs)
  | c :: cs => (String.ofList [c]).toUTF8.toList ++ percentBytes cs

/-- The text that is written with percent signs. -/
def percentDecoded (cs : List Char) : List Char := Text.decodeLossy (percentBytes cs)

/-- The parts of a path without steps to the same or the enclosing place. -/
def resolved (parts : List (List Char)) : List (List Char) :=
  parts.foldl (fun kept part =>
    if part = ['.'] then kept
    else if part = ['.', '.'] then
      if kept.isEmpty ∨ kept = [[]] then kept else kept.dropLast
    else kept ++ [part]) []

/-- A parameter; one without a value has the empty one. -/
def parameter (cs : List Char) : String × String :=
  let decoded (cs : List Char) : String :=
    String.ofList (percentDecoded (cs.map fun c => if c = '+' then ' ' else c))
  let (name, value) := cut '=' cs
  (decoded name, decoded value)

/-- A character of the name of a scheme, which begins with a letter. -/
def isSchemeChar (c : Char) : Bool := c.isAlphanum || c = '+' || c = '-' || c = '.'

/-- The scheme in front of a text, if there is one, and what stands behind it. -/
def cutScheme (cs : List Char) : List Char × List Char :=
  let scheme := cs.takeWhile isSchemeChar
  match cs.dropWhile isSchemeChar with
  | ':' :: rest => if (scheme.head?.all Char.isAlpha) then (scheme, rest) else ([], cs)
  | _ => ([], cs)

/-- The host in front of a text, if there is one, and what stands behind it. -/
def cutHost : List Char → List Char × List Char
  | '/' :: '/' :: rest =>
    let ends (c : Char) : Bool := c = '/' || c = '?' || c = '#'
    (rest.takeWhile (!ends ·), rest.dropWhile (!ends ·))
  | cs => ([], cs)

/-- Why a text names no target. -/
inductive BadTarget where
  /-- A control character stands at this place. -/
  | control (c : Char) (place : Nat)
  /-- A path without scheme and host begins with two slashes. -/
  | doubleSlash
  deriving DecidableEq, Repr

def BadTarget.message : BadTarget → String
  | .control c place =>
    "Invalid non-printable ASCII character in URL, " ++ Text.quoted (String.ofList [c]) ++
      " at position " ++ toString place ++ "."
  | .doubleSlash => "Relative URLs cannot have a path starting with '//'"

/-- A control character from the first 128. -/
def isControl (c : Char) : Bool := c < ' ' || c = '\x7f'

/-- A text without the scheme and the host that it may name. If it does not name both, all
slashes in front are one. -/
def atHome (cs : List Char) : Except BadTarget (List Char) :=
  let (scheme, rest) := cutScheme cs
  let (host, rest) := cutHost rest
  if scheme.isEmpty && host.isEmpty && "//".toList.isPrefixOf rest then .error .doubleSlash
  else if scheme.isEmpty || host.isEmpty then .ok ('/' :: rest.dropWhile (· = '/'))
  else .ok rest

/-- A path by its decoded characters, and a query. -/
structure Target where
  path : List Char
  query : List Char := []
  deriving DecidableEq, Repr

namespace Target

/-- The target at a place: a path, which is decoded twice, and a query. What follows a
number sign is no part of it. -/
def ofPlace (cs : List Char) : Target :=
  let (target, _) := cut '#' cs
  let (path, query) := cut '?' target
  let path := ['/'].intercalate (resolved (split '/' path))
  ⟨percentDecoded (percentDecoded path), query⟩

def ofText (text : String) : Except BadTarget Target :=
  let cs := text.toList
  match cs.findIdx? isControl, cs.find? isControl with
  | some place, some c => .error (.control c place)
  | _, _ => (atHome cs).map ofPlace

/-- The parameters of the query, in order. -/
def parameters (t : Target) : List (String × String) :=
  ((split '&' t.query).filter (!·.isEmpty)).map parameter

/-- The last value of a parameter. -/
def parameter? (t : Target) (name : String) : Option String := t.parameters.reverse.lookup name

/-- The parts of the path. A line break at its end does not count. -/
def parts (t : Target) : List String :=
  let path := if t.path.getLast? = some '\n' then t.path.dropLast else t.path
  (split '/' path).map String.ofList

/-- The same target without the slashes at the end of its path. -/
def trimmed (t : Target) : Target := { t with path := (t.path.reverse.dropWhile (· = '/')).reverse }

/-- The target that the decoded characters of another one name. -/
def reread (t : Target) : Target := ofPlace (t.path ++ '?' :: t.query)

end Target

end FlowDiagram.Service
