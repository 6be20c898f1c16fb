import FlowDiagram.Number.Decimal
/-!
# Decimals of a fixed length

A decimal of a fixed length is found by arithmetic on binary numbers with significands of
64 bits. The value is scaled into the interval from one to ten, half a unit of the last
place is added, and the digits are taken off from the left. Each step rounds to nearest,
a tie to the even neighbour, so a value halfway between two decimals may go either way.
-/

namespace FlowDiagram.Number

/-- A non-negative binary number, `significand * 2 ^ exponent`. -/
structure Extended where
  significand : Nat
  exponent : Int
  deriving DecidableEq, Repr

namespace Extended

/-- The number of bits of a significand. -/
def width : Nat := 64

/-- The quotient rounded to nearest, a tie to even. -/
def roundedQuotient (n d : Nat) : Nat :=
  let q := n / d
  match compare (2 * (n % d)) d with
  | .lt => q
  | .eq => q + q % 2
  | .gt => q + 1

/-- The number with a significand of so many bits that is nearest to `n / d * 2 ^ e`, for
positive `d`. -/
def rounded (bits n d : Nat) (e : Int) : Extended :=
  if n = 0 then ⟨0, 0⟩
  else
    let estimate : Int := (n.log2 : Int) - d.log2 - bits
    let quotient (i : Int) : Nat := roundedQuotient (n * scale 2 (-i)) (d * scale 2 i)
    let i :=
      if scale 2 bits ≤ (n * scale 2 (-estimate)) / (d * scale 2 estimate) then estimate + 1
      else estimate
    ⟨quotient i, e + i⟩

/-- The number nearest to `n / d * 2 ^ e`, for positive `d`. -/
def nearest (n d : Nat) (e : Int) : Extended := rounded width n d e

/-- The number with as many bits as a double has. -/
def toDouble (a : Extended) : Extended := rounded 53 a.significand 1 a.exponent

def isNat (a : Extended) (n : Nat) : Bool :=
  a.significand * scale 2 a.exponent == n * scale 2 (-a.exponent)

/-- The number that a double stands for. -/
def ofFloat (x : Float) : Extended :=
  let d := Dyadic.ofBits x.toBits
  nearest d.mantissa 1 d.exponent

/-- The two significands at a common exponent. -/
def aligned (a b : Extended) : Nat × Nat × Int :=
  let e := min a.exponent b.exponent
  (a.significand * scale 2 (a.exponent - e), b.significand * scale 2 (b.exponent - e), e)

def add (a b : Extended) : Extended :=
  let (m, n, e) := aligned a b
  nearest (m + n) 1 e

/-- The difference, or zero if it is negative. -/
def sub (a b : Extended) : Extended :=
  let (m, n, e) := aligned a b
  nearest (m - n) 1 e

def mul (a b : Extended) : Extended := nearest (a.significand * b.significand) 1 (a.exponent + b.exponent)

def div (a b : Extended) : Extended := nearest a.significand b.significand (a.exponent - b.exponent)

def atMost (a b : Extended) : Bool :=
  let (m, n, _) := aligned a b
  m ≤ n

def floor (a : Extended) : Nat := a.significand * scale 2 a.exponent / scale 2 (-a.exponent)

/-- Multiply a unit by a step while the value is at least the next unit, and count. -/
def raise (value step : Extended) : Nat → Extended → Extended × Nat
  | 0, unit => (unit, 0)
  | fuel + 1, unit =>
    if (step.mul unit).atMost value then
      let (unit, n) := raise value step fuel (unit.mul step)
      (unit, n + 1)
    else (unit, 0)

/-- Multiply a value by a step while it is below a bound, and count. -/
def lift (bound step : Extended) : Nat → Extended → Extended × Nat
  | 0, value => (value, 0)
  | fuel + 1, value =>
    if bound.atMost value then (value, 0)
    else
      let (value, n) := lift bound step fuel (value.mul step)
      (value, n + 1)

/-- A positive value as one from one to ten and a power of ten. -/
def normalized (value : Extended) : Extended × Int :=
  let ten := ofFloat 10.0
  let (unit, hundreds) := raise value (ofFloat 1e100) 4 (ofFloat 1.0)
  let (unit, tens) := raise value (ofFloat 1e10) 10 unit
  let (unit, ones) := raise value ten 10 unit
  let (value, eights) := lift (ofFloat 1e-8) (ofFloat 1e8) 44 (value.div unit)
  let (value, lifted) := lift (ofFloat 1.0) ten 10 value
  (value, 100 * hundreds + 10 * tens + ones - 8 * eights - lifted)

/-- Half a unit of the last of so many digits behind a point. It is a double, and a
product of tenths of ten places. -/
def halfUnit (places : Nat) : Float :=
  (List.replicate (places / 10) 1e-10).foldl (· * ·) (Float.ofScientific 5 true (places % 10 + 1))

/-- Take digits off from the left. -/
def takeDigits : Nat → Extended → Nat → Nat
  | 0, _, digits => digits
  | n + 1, value, digits =>
    let d := value.floor
    takeDigits n ((value.sub (nearest d 1 0)).mul (ofFloat 10.0)) (10 * digits + d)

end Extended

/-- The decimal with so many digits, at least one, for a positive value. -/
def Dyadic.rounded (x : Dyadic) (places : Nat) : Decimal :=
  let (value, lead) := (Extended.nearest x.mantissa 1 x.exponent).normalized
  let value := value.add (Extended.ofFloat (Extended.halfUnit (places - 1)))
  let (value, lead) :=
    if (Extended.ofFloat 10.0).atMost value then (value.mul (Extended.ofFloat 0.1), lead + 1)
    else (value, lead)
  ⟨Extended.takeDigits places value 0, lead - (places - 1 : Nat)⟩

end FlowDiagram.Number
