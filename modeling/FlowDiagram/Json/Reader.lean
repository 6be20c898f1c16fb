import FlowDiagram.Document.Value
import FlowDiagram.Number.Reading
import FlowDiagram.Text.Half
/-!
# Reading JSON text

The reader accepts the JSON grammar and the three words `NaN`, `Infinity` and
`-Infinity`. A number with a fraction or an exponent is the nearest double, and an integer
may have so many digits and no more. Where a text is no JSON, the reader reports the offset
at which it stopped; inside it this is the part of the text that was left.
-/

namespace FlowDiagram.Json

open Document

/-- Why a text is not read. What is no JSON is refused at a place of the text. -/
inductive Fault (place : Type) where
  | malformed (stop : place)
  /-- An integer with too many digits. -/
  | longInteger (digits : Nat)
  | foreign (part : Foreign)
  deriving DecidableEq, Repr

/-- The fault with its place named in another way. -/
def Fault.map {p q : Type} (name : p → q) : Fault p → Fault q
  | .malformed stop => .malformed (name stop)
  | .longInteger digits => .longInteger digits
  | .foreign part => .foreign part

/-- What a reader returns: a result and the text behind it, or why it stopped. -/
abbrev Reading (α : Type) := Except (Fault (List Char)) (α × List Char)

/-- The four blanks of JSON. -/
def isSpace (c : Char) : Bool := c == ' ' || c == '\t' || c == '\n' || c == '\r'

def skip (cs : List Char) : List Char := cs.dropWhile isSpace

/-- The text behind a word that stands at its beginning. -/
def word? : List Char → List Char → Option (List Char)
  | [], cs => some cs
  | w :: ws, c :: cs => if w = c then word? ws cs else none
  | _ :: _, [] => none

/-- The character that a one-letter escape stands for. -/
def escapeOf? : Char → Option Char
  | '"' => some '"'
  | '\\' => some '\\'
  | '/' => some '/'
  | 'b' => some '\x08'
  | 'f' => some '\x0c'
  | 'n' => some '\n'
  | 'r' => some '\r'
  | 't' => some '\t'
  | _ => none

/-- The number that four hexadecimal digits denote. -/
def unit? (a b c d : Char) : Option Nat := Number.ofHex? [a, b, c, d]

/-- The character with a number in front of the rest of a string. -/
def withUnit (n : Nat) (rest : Reading (List Char)) : Reading (List Char) :=
  rest.bind fun (cs, tail) =>
    match Text.char? n with
    | some c => .ok (c :: cs, tail)
    | none => .error (.foreign .half)

/-- The characters of a string up to its closing quote. A string that is not closed is
reported at its opening quote. -/
def stringBody (opening : List Char) : List Char → Reading (List Char)
  | [] => .error (.malformed opening)
  | '"' :: rest => .ok ([], rest)
  | '\\' :: 'u' :: a :: b :: c :: d :: '\\' :: 'u' :: e :: f :: g :: h :: i :: rest =>
    match unit? a b c d with
    | none =>
      .error (.malformed
        ('u' :: a :: b :: c :: d :: '\\' :: 'u' :: e :: f :: g :: h :: i :: rest))
    | some high =>
      if Text.isHighHalf high then
        match unit? e f g h with
        | none => .error (.malformed ('u' :: e :: f :: g :: h :: i :: rest))
        | some low =>
          if Text.isLowHalf low then
            (stringBody opening (i :: rest)).map fun (cs, tail) =>
              (Text.charOfHalves high low :: cs, tail)
          else
            withUnit high (stringBody opening ('\\' :: 'u' :: e :: f :: g :: h :: i :: rest))
      else withUnit high (stringBody opening ('\\' :: 'u' :: e :: f :: g :: h :: i :: rest))
  | '\\' :: 'u' :: a :: b :: c :: d :: e :: rest =>
    match unit? a b c d with
    | none => .error (.malformed ('u' :: a :: b :: c :: d :: e :: rest))
    | some n => withUnit n (stringBody opening (e :: rest))
  | '\\' :: 'u' :: rest => .error (.malformed ('u' :: rest))
  | ['\\'] => .error (.malformed opening)
  | '\\' :: c :: rest =>
    match escapeOf? c with
    | none => .error (.malformed ('\\' :: c :: rest))
    | some e => (stringBody opening rest).map fun (cs, tail) => (e :: cs, tail)
  | c :: rest =>
    if c.toNat < 0x20 then .error (.malformed (c :: rest))
    else (stringBody opening rest).map fun (cs, tail) => (c :: cs, tail)
termination_by structural cs => cs

def string (cs : List Char) : Reading String :=
  (stringBody cs (cs.drop 1)).map fun (body, tail) => (String.ofList body, tail)

/-- The fraction of a number: a point and at least one digit. -/
def fraction (cs : List Char) : List Char × List Char :=
  match cs with
  | '.' :: rest =>
    let ds := rest.takeWhile Char.isDigit
    if ds.isEmpty then ([], cs) else (ds, rest.dropWhile Char.isDigit)
  | _ => ([], cs)

/-- The exponent of a number, if a complete one follows. -/
def power (cs : List Char) : Option Int × List Char :=
  match cs with
  | [] => (none, cs)
  | c :: rest =>
    if c = 'e' ∨ c = 'E' then
      let (negative, digits) := Number.splitSign rest
      let ds := digits.takeWhile Char.isDigit
      if ds.isEmpty then (none, cs)
      else
        let n : Int := Number.ofDigits ds
        (some (if negative then -n else n), digits.dropWhile Char.isDigit)
    else (none, cs)

/-- The whole part of a number has no leading zero. -/
def whole (cs : List Char) : List Char × List Char :=
  match cs with
  | '0' :: rest => (['0'], rest)
  | _ => (cs.takeWhile Char.isDigit, cs.dropWhile Char.isDigit)

/-- A number behind its sign. Without fraction and exponent it is an integer, whose digits are
counted. What has no digits is refused where it begins. -/
def magnitude (negative : Bool) (start cs : List Char) : Reading Value :=
  let (digits, afterWhole) := whole cs
  if digits.isEmpty then .error (.malformed start)
  else
    let (places, afterFraction) := fraction afterWhole
    let (exponent, rest) := power afterFraction
    if places.isEmpty && exponent.isNone then
      if Number.mostDigits < digits.length then .error (.longInteger digits.length)
      else
        let n : Int := Number.ofDigits digits
        .ok (.int (if negative then -n else n), rest)
    else
      let x := Number.ofParts digits places (exponent.getD 0)
      .ok (.float (if negative then -x else x), rest)

def number (cs : List Char) : Reading Value :=
  match cs with
  | '-' :: rest => magnitude true cs rest
  | _ => magnitude false cs cs

/-- A value that is a single word. -/
def constant? (cs : List Char) : Option (Value × List Char) :=
  [("null", Value.null), ("true", .bool true), ("false", .bool false),
    ("NaN", .float Number.notANumber), ("Infinity", .float Number.infinity),
    ("-Infinity", .float (-Number.infinity))].findSome? fun (name, value) =>
      (word? name.toList cs).map (value, ·)

mutual

/-- A value at the beginning of the text. The number bounds the nesting of the calls. -/
def value : Nat → List Char → Except (Fault (List Char)) (Value × List Char)
  | 0, cs => .error (.malformed cs)
  | fuel + 1, cs =>
    match cs with
    | '"' :: _ => (string cs).map fun (s, rest) => (.str s, rest)
    | '[' :: rest =>
      match skip rest with
      | ']' :: tail => .ok (.seq [], tail)
      | body => (elements fuel body).map fun (vs, tail) => (.seq vs, tail)
    | '{' :: rest =>
      match skip rest with
      | '}' :: tail => .ok (.map [], tail)
      | body => (members fuel body).map fun (es, tail) => (Value.ofEntries es, tail)
    | _ =>
      match constant? cs with
      | some found => .ok found
      | none => number cs
termination_by structural fuel => fuel

/-- The elements of an array and its closing bracket. -/
def elements : Nat → List Char → Except (Fault (List Char)) (List Value × List Char)
  | 0, cs => .error (.malformed cs)
  | fuel + 1, cs => do
    let (v, rest) ← value fuel cs
    match skip rest with
    | ']' :: tail => .ok ([v], tail)
    | ',' :: tail =>
      let (vs, tail) ← elements fuel (skip tail)
      .ok (v :: vs, tail)
    | stop => .error (.malformed stop)
termination_by structural fuel => fuel

/-- The members of an object and its closing brace. -/
def members : Nat → List Char → Except (Fault (List Char)) (List (Value × Value) × List Char)
  | 0, cs => .error (.malformed cs)
  | fuel + 1, cs =>
    match cs with
    | '"' :: _ => do
      let (key, rest) ← string cs
      match skip rest with
      | ':' :: body =>
        let (v, rest) ← value fuel (skip body)
        match skip rest with
        | '}' :: tail => .ok ([(.str key, v)], tail)
        | ',' :: tail =>
          let (es, tail) ← members fuel (skip tail)
          .ok ((.str key, v) :: es, tail)
        | stop => .error (.malformed stop)
      | stop => .error (.malformed stop)
    | _ => .error (.malformed cs)
termination_by structural fuel => fuel

end

/-- The document in a text that holds nothing else, or why it is refused, with the offset.
A byte order mark is refused. -/
def read (text : List Char) : Except (Fault Nat) Value :=
  let offset (rest : List Char) : Nat := text.length - rest.length
  match text with
  | '\uFEFF' :: _ => .error (.malformed 0)
  | _ =>
    match value (2 * text.length + 2) (skip text) with
    | .error fault => .error (fault.map offset)
    | .ok (v, rest) =>
      match skip rest with
      | [] => .ok v
      | extra => .error (.malformed (offset extra))

end FlowDiagram.Json
