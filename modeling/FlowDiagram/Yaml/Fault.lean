import FlowDiagram.Document.Value
import FlowDiagram.Text.Quoted
/-!
# Why a document is refused

A text may break the grammar, or a scalar in it may not be what its kind announces. The
second sort of fault is found while the values are built and names the scalar. A text can
also hold what no value is.
-/

namespace FlowDiagram.Yaml

/-- Why a text has no value. -/
inductive Fault where
  /-- The text breaks the grammar, or names an unknown kind. -/
  | malformed
  /-- An escape names a code point that does not exist. -/
  | codePoint
  /-- An escape names a number that does not even fit into 31 bits. -/
  | wideEscape
  /-- A date or time that the calendar does not have. -/
  | calendar (fault : Document.CalendarFault)
  /-- A scalar announced as an integer is none in its base. -/
  | integer (base : Nat) (text : String)
  /-- A scalar announced as a number is none. -/
  | number (text : String)
  /-- A scalar announced as a number has no digits at all. -/
  | noDigits
  /-- A digit of a number with base 60 counts more than any double. -/
  | beyondDoubles
  /-- A scalar announced as a truth value is none. -/
  | truth (text : String)
  /-- A scalar announced as a time does not have the form of one. -/
  | time
  /-- A mapping is announced as a time. -/
  | compoundTime
  /-- An integer with too many digits. -/
  | longInteger (digits : Nat)
  | foreign (part : Document.Foreign)
  deriving DecidableEq, Repr

/-- The quoted text of a scalar, of which at most 200 characters are shown. -/
def excerpt (text : String) : String := String.ofList ((Text.quoted text).toList.take 200)

def Fault.message : Fault → String
  | .malformed => "malformed document"
  | .codePoint => "chr() arg not in range(0x110000)"
  | .wideEscape => "Python int too large to convert to C int"
  | .calendar fault => fault.message
  | .integer base text =>
    "invalid literal for int() with base " ++ toString base ++ ": " ++ excerpt text
  | .number text => "could not convert string to float: " ++ Text.quoted text
  | .noDigits => "string index out of range"
  | .beyondDoubles => "int too large to convert to float"
  | .truth text => Text.quoted text
  | .time => "'NoneType' object has no attribute 'groupdict'"
  | .compoundTime => "expected string or bytes-like object, got 'list'"
  | .longInteger digits => Number.digitsMessage digits
  | .foreign part => part.message

end FlowDiagram.Yaml
