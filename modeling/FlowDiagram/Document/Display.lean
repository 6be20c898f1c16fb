import FlowDiagram.Document.Value
import FlowDiagram.Number.Style
import FlowDiagram.Text.Quoted
/-!
# Display text of values

A text displays as itself; every other value displays as it would inside a collection,
except that dates are written plainly. Inside collections texts are quoted and dates are
written with the parts they are made of.
-/

namespace FlowDiagram.Document

namespace Date

/-- A date by its parts. -/
def parts (d : Date) : String :=
  "datetime.date(" ++ ", ".intercalate ([d.year, d.month, d.day].map toString) ++ ")"

end Date

namespace Moment

/-- The clock of a moment by its parts. -/
def offsetParts (seconds : Int) : String :=
  if seconds = 0 then "datetime.timezone.utc"
  else "datetime.timezone(" ++ spanText seconds ++ ")"

/-- A moment by its parts. Seconds and microseconds are left out when nothing but zeros
would follow. -/
def parts (t : Moment) : String :=
  let clock :=
    if t.microsecond ≠ 0 then [t.hour, t.minute, t.second, t.microsecond]
    else if t.second ≠ 0 then [t.hour, t.minute, t.second]
    else [t.hour, t.minute]
  let numbers := ([t.date.year, t.date.month, t.date.day] ++ clock).map toString
  let zone := (t.offset.map fun seconds => ["tzinfo=" ++ offsetParts seconds]).getD []
  "datetime.datetime(" ++ ", ".intercalate (numbers ++ zone) ++ ")"

end Moment

namespace Value

mutual

/-- A value as it is written inside a collection. -/
def inner : Value → String
  | .null => "None"
  | .bool b => if b then "True" else "False"
  | .int n => toString n
  | .float x => Number.Style.display.render x
  | .str s => Text.quoted s
  | .bytes bs => Text.quotedBytes bs
  | .date d => d.parts
  | .moment t => t.parts
  | .pair k v => "(" ++ inner k ++ ", " ++ inner v ++ ")"
  | .seq items => "[" ++ ", ".intercalate (innerItems items) ++ "]"
  | .map entries => "\x7b" ++ ", ".intercalate (innerEntries entries) ++ "\x7d"
termination_by structural v => v

def innerItems : List Value → List String
  | [] => []
  | v :: rest => inner v :: innerItems rest
termination_by structural vs => vs

def innerEntries : List (Value × Value) → List String
  | [] => []
  | (k, v) :: rest => (inner k ++ ": " ++ inner v) :: innerEntries rest
termination_by structural es => es

end

/-- The display text of a value. -/
def display : Value → String
  | .str s => s
  | .date d => d.text
  | .moment t => t.spacedText
  | v => v.inner

end Value

end FlowDiagram.Document
