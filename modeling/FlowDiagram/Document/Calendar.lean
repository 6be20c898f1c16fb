/-!
# Calendar dates and moments

Dates follow the proleptic Gregorian calendar in the years 1 to 9999. A moment is a date
with a time of day to the microsecond and, where the document gave one, the offset of its
clock from universal time. Two moments with offsets denote the same instant when they
agree after the offsets are removed.
-/

namespace FlowDiagram.Document

structure Date where
  year : Nat
  month : Nat
  day : Nat
  deriving DecidableEq, Repr

/-- A time of day on a date. The offset counts the seconds by which the clock is ahead
of universal time. -/
structure Moment where
  date : Date
  hour : Nat
  minute : Nat
  second : Nat
  microsecond : Nat
  offset : Option Int
  deriving DecidableEq, Repr

/-- What is wrong with a date or a time. -/
inductive CalendarFault where
  | year (given : Nat)
  | month
  | day
  | hour
  | minute
  | second
  | offset (seconds : Int)
  deriving DecidableEq, Repr

/-- A length of time in whole days and a remainder of seconds below one day. -/
def spanText (seconds : Int) : String :=
  let days := Int.fdiv seconds 86400
  let rest := Int.fmod seconds 86400
  let parts :=
    (if days = 0 then [] else ["days=" ++ toString days]) ++
      (if rest = 0 then [] else ["seconds=" ++ toString rest])
  "datetime.timedelta(" ++ (if parts.isEmpty then "0" else ", ".intercalate parts) ++ ")"

def CalendarFault.message : CalendarFault → String
  | .year given => "year " ++ toString given ++ " is out of range"
  | .month => "month must be in 1..12"
  | .day => "day is out of range for month"
  | .hour => "hour must be in 0..23"
  | .minute => "minute must be in 0..59"
  | .second => "second must be in 0..59"
  | .offset seconds =>
    "offset must be a timedelta strictly between -timedelta(hours=24) and timedelta(hours=24), not "
      ++ spanText seconds ++ "."

/-- A year with a 29 February. -/
def isLeap (year : Nat) : Bool :=
  year % 4 == 0 && (year % 100 != 0 || year % 400 == 0)

def daysIn (year month : Nat) : Nat :=
  if month = 2 then (if isLeap year then 29 else 28)
  else if month = 4 ∨ month = 6 ∨ month = 9 ∨ month = 11 then 30
  else 31

namespace Date

/-- The first fault of a date, checked from the year down to the day. -/
def fault? (d : Date) : Option CalendarFault :=
  if d.year < 1 ∨ 9999 < d.year then some (.year d.year)
  else if d.month < 1 ∨ 12 < d.month then some .month
  else if d.day < 1 ∨ daysIn d.year d.month < d.day then some .day
  else none

/-- Days since the day before 1 January of the year 1. -/
def dayNumber (d : Date) : Nat :=
  let y := d.year - 1
  let earlier := (List.range (d.month - 1)).foldl (fun n m => n + daysIn d.year (m + 1)) 0
  365 * y + y / 4 - y / 100 + y / 400 + earlier + d.day

end Date

/-- A number with leading zeros up to a width. -/
def padded (width n : Nat) : String :=
  let ds := Nat.toDigits 10 n
  String.ofList (List.replicate (width - ds.length) '0' ++ ds)

/-- Year, month and day with hyphens. -/
def Date.text (d : Date) : String :=
  padded 4 d.year ++ "-" ++ padded 2 d.month ++ "-" ++ padded 2 d.day

namespace Moment

/-- The first fault of a moment: the offset, then the date, then the time. -/
def fault? (t : Moment) : Option CalendarFault :=
  match t.offset with
  | some seconds =>
    if 86400 ≤ seconds.natAbs then some (.offset seconds) else clock t
  | none => clock t
where
  clock (t : Moment) : Option CalendarFault :=
    t.date.fault?.or
      (if 23 < t.hour then some .hour
      else if 59 < t.minute then some .minute
      else if 59 < t.second then some .second
      else none)

/-- Microseconds since the beginning of the calendar, without the offset. -/
def instant (t : Moment) : Int :=
  let seconds : Int :=
    (t.date.dayNumber * 86400 + t.hour * 3600 + t.minute * 60 + t.second : Nat) - t.offset.getD 0
  seconds * 1000000 + t.microsecond

/-- The same instant on the calendar. A moment without an offset is never the same as
one with an offset. -/
def same (s t : Moment) : Bool :=
  s.offset.isSome == t.offset.isSome && s.instant == t.instant

/-- Hours and minutes of an offset behind their sign. -/
def offsetText (seconds : Int) : String :=
  let minutes := seconds.natAbs / 60
  (if seconds < 0 then "-" else "+") ++ padded 2 (minutes / 60) ++ ":" ++ padded 2 (minutes % 60)

/-- Date and time with a chosen separator and a chosen text for the offset. The fraction
has six digits and is left out when it is zero. -/
def textWith (separator : String) (offsetText : Int → String) (t : Moment) : String :=
  t.date.text ++ separator ++ padded 2 t.hour ++ ":" ++ padded 2 t.minute ++ ":" ++
    padded 2 t.second ++ (if t.microsecond = 0 then "" else "." ++ padded 6 t.microsecond) ++
    (t.offset.map offsetText).getD ""

/-- The text of a moment with the letter `T` before the time. -/
def text (t : Moment) : String := t.textWith "T" offsetText

/-- The text of a moment with a blank before the time. -/
def spacedText (t : Moment) : String := t.textWith " " offsetText

/-- The text of a moment in which universal time is the letter `Z`. -/
def zuluText (t : Moment) : String :=
  t.textWith "T" fun seconds => if seconds = 0 then "Z" else offsetText seconds

end Moment

end FlowDiagram.Document
