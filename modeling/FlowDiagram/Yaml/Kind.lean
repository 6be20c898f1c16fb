import FlowDiagram.Yaml.Time
/-!
# Kinds of nodes

Every node has a kind: the one its tag names, or the one that the form of a plain scalar
suggests. Truth values are only the words `true` and `false`; all other words stay text.
-/

namespace FlowDiagram.Yaml

inductive Kind where
  | null
  | truth
  | integer
  | number
  | text
  | binary
  | time
  | seq
  | map
  /-- A list of single entries. -/
  | pairs
  | set
  /-- The key whose value is merged into its mapping. -/
  | merge
  /-- The key that stands for the mapping as a whole. -/
  | whole
  | unknown
  deriving DecidableEq, Repr

namespace Kind

/-- The kind that a full tag names. -/
def ofTag (tag : String) : Kind :=
  let name (s : String) : String := "tag:yaml.org,2002:" ++ s
  (([("null", Kind.null), ("bool", .truth), ("int", .integer), ("float", .number), ("str", .text),
    ("binary", .binary), ("timestamp", .time), ("seq", .seq), ("map", .map), ("omap", .pairs),
    ("pairs", .pairs), ("set", .set), ("merge", .merge), ("value", .whole)].find? fun (s, _) =>
      name s == tag).map (·.2)).getD .unknown

/-- A digit or an underscore. -/
def isDigitOrGap (c : Char) : Bool := c.isDigit || c == '_'

/-- A non-empty run of characters of a class. -/
def allOf (p : Char → Bool) (cs : List Char) : Bool := !cs.isEmpty && cs.all p

/-- The text behind a sign, if there is one. -/
def unsigned : List Char → List Char
  | '-' :: cs | '+' :: cs => cs
  | cs => cs

/-- The parts of a text between its colons. -/
def colonParts : List Char → List (List Char)
  | [] => [[]]
  | ':' :: cs => [] :: colonParts cs
  | c :: cs =>
    match colonParts cs with
    | part :: parts => (c :: part) :: parts
    | [] => [[c]]

/-- A digit, or two of them up to 59. -/
def isSixtieth : List Char → Bool
  | [a] => a.isDigit
  | [a, b] => '0' ≤ a && a ≤ '5' && b.isDigit
  | _ => false

/-- The form of an integer: binary, octal, decimal, hexadecimal or with base 60. -/
def looksInteger (cs : List Char) : Bool :=
  match unsigned cs with
  | ['0'] => true
  | '0' :: 'b' :: ds => allOf (fun c => c == '0' || c == '1' || c == '_') ds
  | '0' :: 'x' :: ds => allOf (fun c => (Number.hexValue? c).isSome || c == '_') ds
  | '0' :: ds => allOf (fun c => ('0' ≤ c && c ≤ '7') || c == '_') ds
  | c :: ds =>
    '1' ≤ c && c ≤ '9' &&
      match colonParts ds with
      | head :: tail => head.all isDigitOrGap && tail.all isSixtieth
      | [] => false
  | [] => false

/-- The exponent of a number: nothing, or a letter, a sign and digits. -/
def looksExponent : List Char → Bool
  | [] => true
  | e :: sign :: ds =>
    (e == 'e' || e == 'E') && (sign == '+' || sign == '-') && allOf Char.isDigit ds
  | _ => false

/-- The places behind a point with the exponent. -/
def looksFraction (cs : List Char) : Bool := looksExponent (cs.dropWhile isDigitOrGap)

/-- The form of a number that is no integer. -/
def looksNumber (cs : List Char) : Bool :=
  let body := unsigned cs
  let word := String.ofList body
  if word == ".inf" || word == ".Inf" || word == ".INF" then true
  else if [".nan", ".NaN", ".NAN"].contains (String.ofList cs) then true
  else
    match cs, body with
    | '.' :: d :: ds, _ => d.isDigit && looksFraction ds
    | _, d :: ds =>
      d.isDigit &&
        match colonParts ds with
        | [_] =>
          match ds.dropWhile isDigitOrGap with
          | '.' :: places => looksFraction places
          | _ => false
        | head :: tail =>
          head.all isDigitOrGap && (tail.dropLast.all isSixtieth) &&
            match tail.getLast? with
            | some last =>
              isSixtieth (last.takeWhile (· != '.')) &&
                match last.dropWhile (· != '.') with
                | '.' :: places => places.all isDigitOrGap
                | _ => false
            | none => false
        | [] => false
    | _, [] => false

/-- The form of a time: a date with two digits everywhere, or a date with a clock. -/
def looksTime (cs : List Char) : Bool :=
  match writtenTime? cs with
  | some t => t.hasClock || t.wide
  | none => false

/-- One line feed at the end of a scalar does not change its form. -/
def withoutFinalBreak (cs : List Char) : List Char :=
  if 1 < cs.length ∧ cs.getLast? = some '\n' then cs.dropLast else cs

/-- The kind that the form of a scalar suggests. A lone sign of a tag, an anchor or an alias
is no value. -/
def ofForm (text : String) : Kind :=
  let cs := withoutFinalBreak text.toList
  let word := String.ofList cs
  if ["", "~", "null", "Null", "NULL"].contains word then .null
  else if ["true", "True", "TRUE", "false", "False", "FALSE"].contains word then .truth
  else if word == "<<" then .merge
  else if word == "=" then .whole
  else if ["!", "&", "*"].contains word then .unknown
  else if looksInteger cs then .integer
  else if looksNumber cs then .number
  else if looksTime cs then .time
  else .text

end Kind

end FlowDiagram.Yaml
