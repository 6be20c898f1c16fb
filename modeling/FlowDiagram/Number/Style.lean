import FlowDiagram.Number.Extended
/-!
# Written numbers

A double is written positionally, with a fraction digit even for whole numbers, while its
leading digit stands between `10 ^ -4` and a limit, and with a signed exponent of at
least two digits beyond. Formats differ in that limit, in the number of digits and in
the words for the values outside the real line.
-/

namespace FlowDiagram.Number

/-- How a format writes doubles. -/
structure Style where
  nan : String
  infinity : String
  /-- The number of significant digits; without one, as few as identify the number. -/
  places : Option Nat := none
  /-- From this power of ten on, an exponent is written. -/
  limit : Int := 16
  /-- A lone digit in front of an exponent has a fraction. -/
  pointed : Bool := false
  /-- The sign of a zero is written. -/
  zeroSigned : Bool := true
  deriving DecidableEq, Repr

namespace Style

/-- Labels and JSON text. -/
def document : Style := { nan := "NaN", infinity := "Infinity" }

/-- Plain display of a value. -/
def display : Style := { nan := "nan", infinity := "inf" }

/-- Numbers in a column of texts. -/
def column : Style where
  nan := ""
  infinity := "Inf"
  places := some 15
  limit := 15
  pointed := true
  zeroSigned := false

end Style

/-- Decimal digits of a natural number, most significant first. -/
def digits (n : Nat) : List Char := Nat.toDigits 10 n

/-- The digits without the zeros at their end, which move into the exponent. -/
def trimmed (ds : List Char) : List Char := (ds.reverse.dropWhile (· = '0')).reverse

/-- A positive decimal whose leading digit counts `10 ^ lead`. -/
def Style.layOut (style : Style) (ds : List Char) (lead : Int) : List Char :=
  let width := ds.length
  if -4 ≤ lead ∧ lead < style.limit then
    if lead < 0 then
      ['0', '.'] ++ List.replicate (-lead - 1).toNat '0' ++ ds
    else
      let whole := lead.toNat + 1
      if width ≤ whole then ds ++ List.replicate (whole - width) '0' ++ ['.', '0']
      else ds.take whole ++ ['.'] ++ ds.drop whole
  else
    let point :=
      if 1 < width then '.' :: ds.drop 1 else if style.pointed then ['.', '0'] else []
    let exponent := digits lead.natAbs
    let padded := List.replicate (2 - exponent.length) '0' ++ exponent
    ds.take 1 ++ point ++ ['e', if lead < 0 then '-' else '+'] ++ padded

/-- The decimal that a format writes for a positive value. -/
def Style.decimal (style : Style) (x : Dyadic) : Decimal :=
  match style.places with
  | some n => x.rounded n
  | none => x.shortest

/-- The text of a finite magnitude. -/
def Style.magnitudeText (style : Style) (x : Dyadic) : List Char :=
  if x.mantissa = 0 then ['0', '.', '0']
  else
    let d := style.decimal x
    let all := digits d.digits
    style.layOut (trimmed all) (d.exponent + all.length - 1)

def Style.render (style : Style) (x : Float) : String :=
  let bits := x.toBits
  let negative := bits >>> 63 == 1
  let field := (bits >>> 52) &&& 0x7FF
  if field == 0x7FF then
    if bits &&& 0xFFFFFFFFFFFFF != 0 then style.nan
    else if negative then "-" ++ style.infinity else style.infinity
  else
    let magnitude := Dyadic.ofBits bits
    let text := String.ofList (style.magnitudeText magnitude)
    if negative && (style.zeroSigned || magnitude.mantissa != 0) then "-" ++ text else text

end FlowDiagram.Number
