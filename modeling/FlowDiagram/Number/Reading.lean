/-!
# Reading decimal numbers

A decimal literal is a run of digits, an optional fraction and an optional power of
ten. `nearest` turns it into the closest double; `read?` also accepts the usual words
for the infinities and for the value that is not a number.

Integers are read from decimal digits, and written with them, up to a number of digits.
-/

namespace FlowDiagram.Number

def digitValue (c : Char) : Nat := c.toNat - '0'.toNat

/-- The natural number that a run of ASCII digits denotes. -/
def ofDigits (ds : List Char) : Nat := ds.foldl (fun n c => 10 * n + digitValue c) 0

/-- The most decimal digits with which an integer is read or written. -/
def mostDigits : Nat := 4300

/-- The integer is short enough to be written. -/
def isShort (n : Int) : Bool := (Nat.toDigits 10 n.natAbs).length ≤ mostDigits

/-- What is said of an integer that is not written because of its length. -/
def lengthMessage : String :=
  "Exceeds the limit (" ++ toString mostDigits ++ " digits) for integer string conversion; "
    ++ "use sys.set_int_max_str_digits() to increase the limit"

/-- What is said of so many digits that are not read. -/
def digitsMessage (digits : Nat) : String :=
  "Exceeds the limit (" ++ toString mostDigits ++ " digits) for integer string conversion: "
    ++ "value has " ++ toString digits
    ++ " digits; use sys.set_int_max_str_digits() to increase the limit"

def hexValue? (c : Char) : Option Nat :=
  if c.isDigit then some (digitValue c)
  else if 'a' ≤ c ∧ c ≤ 'f' then some (c.toNat - 'a'.toNat + 10)
  else if 'A' ≤ c ∧ c ≤ 'F' then some (c.toNat - 'A'.toNat + 10)
  else none

/-- The number that a run of hexadecimal digits denotes. -/
def ofHex? (ds : List Char) : Option Nat :=
  ds.foldl (fun n c => n.bind fun n => (hexValue? c).map (16 * n + ·)) (some 0)

def infinity : Float := 1.0 / 0.0

def notANumber : Float := 0.0 / 0.0

/-- The double nearest to `n * 10 ^ exponent`. Magnitudes far outside the range of
doubles are settled without computing the power. -/
def nearest (n : Nat) (exponent : Int) : Float :=
  let lead := exponent + (Nat.toDigits 10 n).length
  if n = 0 ∨ lead < -340 then 0.0
  else if 320 < lead then infinity
  else Float.ofScientific n (exponent < 0) exponent.natAbs

/-- The double nearest to an integer. -/
def nearestInt (i : Int) : Float :=
  if i < 0 then -(nearest i.natAbs 0) else nearest i.natAbs 0

/-- The double that a whole part, a fraction and an exponent denote together. -/
def ofParts (whole fraction : List Char) (exponent : Int) : Float :=
  nearest (ofDigits (whole ++ fraction)) (exponent - fraction.length)

/-- A sign and the rest of the text. The flag is set for a minus sign. -/
def splitSign : List Char → Bool × List Char
  | '-' :: cs => (true, cs)
  | '+' :: cs => (false, cs)
  | cs => (false, cs)

/-- The exponent part of a literal, which must fill the text. No exponent counts as zero. -/
def exponent? : List Char → Option Int
  | [] => some 0
  | c :: cs =>
    if c = 'e' ∨ c = 'E' then
      let (negative, ds) := splitSign cs
      if ds.isEmpty ∨ !ds.all Char.isDigit then none
      else some (if negative then -(ofDigits ds : Int) else ofDigits ds)
    else none

/-- The parts of an unsigned literal: digits on at least one side of an optional point, then
an optional exponent. -/
def parts? (cs : List Char) : Option (List Char × List Char × Int) :=
  let whole := cs.takeWhile Char.isDigit
  let rest := cs.dropWhile Char.isDigit
  let (fraction, tail) := match rest with
    | '.' :: ds => (ds.takeWhile Char.isDigit, ds.dropWhile Char.isDigit)
    | _ => ([], rest)
  if whole.isEmpty && fraction.isEmpty then none
  else (exponent? tail).map (whole, fraction, ·)

def unsigned? (cs : List Char) : Option Float :=
  (parts? cs).map fun (whole, fraction, exponent) => ofParts whole fraction exponent

/-- A signed literal, or one of the words `inf`, `infinity` and `nan` in any case. -/
def read? (cs : List Char) : Option Float :=
  let (negative, body) := splitSign cs
  let word := String.ofList (body.map Char.toLower)
  let magnitude :=
    if word = "inf" ∨ word = "infinity" then some infinity
    else if word = "nan" then some notANumber
    else unsigned? body
  magnitude.map fun x => if negative then -x else x

@[simp] theorem isShort_neg (n : Int) : isShort (-n) = isShort n := by
  rw [isShort, isShort, Int.natAbs_neg]

/-- Different natural numbers have different decimal texts: reading the digits back gives
the number. -/
theorem toString_injective {m n : Nat} (same : toString m = toString n) : m = n := by
  have digits : Nat.toDigits 10 m = Nat.toDigits 10 n := by
    simpa only [Nat.toString_eq_repr, Nat.toList_repr] using congrArg String.toList same
  simpa using congrArg (Nat.ofDigitChars 10 · 0) digits

end FlowDiagram.Number
