import FlowDiagram.Document.Calendar
import FlowDiagram.Number.Reading
/-!
# Times in documents

A time is a date, and optionally a time of day behind the letter `T` or blanks, a
fraction of a second and an offset. Fractions are cut to microseconds.
-/

namespace FlowDiagram.Yaml

open Document

/-- The parts of a time as they are written. -/
structure WrittenTime where
  moment : Moment
  /-- A time of day is given. -/
  hasClock : Bool
  /-- Month and day have two digits each. -/
  wide : Bool

/-- Exactly `n` digits and the text behind them. -/
def digits? (n : Nat) (cs : List Char) : Option (Nat × List Char) :=
  let ds := cs.take n
  if ds.length = n ∧ ds.all Char.isDigit then some (Number.ofDigits ds, cs.drop n) else none

/-- One or two digits and the text behind them. -/
def oneOrTwo? (cs : List Char) : Option (Nat × List Char) := (digits? 2 cs).or (digits? 1 cs)

/-- The text behind a character. -/
def after? (ch : Char) : List Char → Option (List Char)
  | c :: cs => if c = ch then some cs else none
  | [] => none

/-- Blanks between the parts of a time. -/
def isTimeBlank (c : Char) : Bool := c == ' ' || c == '\t'

/-- Six digits of a fraction; missing ones are zero. -/
def microseconds (ds : List Char) : Nat :=
  Number.ofDigits ((ds ++ List.replicate 6 '0').take 6)

/-- An offset that ends the text: nothing, `Z`, or a sign with hours and minutes. -/
def offset? (cs : List Char) : Option (Option Int) :=
  if cs.isEmpty then some none
  else
    match cs.dropWhile isTimeBlank with
    | ['Z'] => some (some 0)
    | sign :: rest =>
      if sign = '+' ∨ sign = '-' then do
        let (hours, rest) ← oneOrTwo? rest
        let minutes ← match rest with
          | [] => some 0
          | _ => do
            let (minutes, rest) ← digits? 2 (← after? ':' rest)
            if rest.isEmpty then some minutes else none
        let seconds : Int := hours * 3600 + minutes * 60
        some (some (if sign = '-' then -seconds else seconds))
      else none
    | [] => none

/-- A time of day up to the end of the text. -/
def clock? (date : Date) (cs : List Char) : Option Moment := do
  let body ← match cs with
    | c :: rest =>
      if c = 'T' ∨ c = 't' then some rest
      else if isTimeBlank c then some (rest.dropWhile isTimeBlank)
      else none
    | [] => none
  let (hour, rest) ← oneOrTwo? body
  let (minute, rest) ← digits? 2 (← after? ':' rest)
  let (second, rest) ← digits? 2 (← after? ':' rest)
  let (fraction, rest) := match rest with
    | '.' :: ds => (ds.takeWhile Char.isDigit, ds.dropWhile Char.isDigit)
    | _ => ([], rest)
  let offset ← offset? rest
  some ⟨date, hour, minute, second, microseconds fraction, offset⟩

/-- The parts of a written time. Whether the calendar has it is not asked here. -/
def writtenTime? (cs : List Char) : Option WrittenTime := do
  let (year, rest) ← digits? 4 cs
  let afterYear ← after? '-' rest
  let (month, rest) ← oneOrTwo? afterYear
  let afterMonth ← after? '-' rest
  let (day, rest) ← oneOrTwo? afterMonth
  let date : Date := ⟨year, month, day⟩
  if rest.isEmpty then
    some ⟨⟨date, 0, 0, 0, 0, none⟩, false, (digits? 2 afterYear).isSome && (digits? 2 afterMonth).isSome⟩
  else
    let moment ← clock? date rest
    some ⟨moment, true, true⟩

end FlowDiagram.Yaml
