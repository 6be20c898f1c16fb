/-!
# Shortest decimals of binary numbers

A finite double is `mantissa * 2 ^ exponent`. The reals that round to it form an
interval, and the decimal chosen for it is one with the fewest digits inside that
interval, the nearest one when two of the same length qualify.

All comparisons are made on natural numbers by cross multiplication, so the choice
depends on no floating-point operation.
-/

namespace FlowDiagram.Number

/-- A finite non-negative double, `mantissa * 2 ^ exponent`. -/
structure Dyadic where
  mantissa : Nat
  exponent : Int
  /-- The double just below is half as far away as the one just above. -/
  narrowBelow : Bool
  deriving DecidableEq, Repr

/-- The decimal `digits * 10 ^ exponent`. -/
structure Decimal where
  digits : Nat
  exponent : Int
  deriving DecidableEq, Repr

/-- A base to a power; one if the exponent is negative, so that the two directions of a
scale are `scale base e` above and `scale base (-e)` below a fraction bar. -/
def scale (base : Nat) (exponent : Int) : Nat := Nat.pow base exponent.toNat

namespace Dyadic

/-- The magnitude that the bits of a finite double stand for. -/
def ofBits (bits : UInt64) : Dyadic :=
  let field := ((bits >>> 52) &&& 0x7FF).toNat
  let fraction := (bits &&& 0xFFFFFFFFFFFFF).toNat
  if field = 0 then ⟨fraction, -1074, false⟩
  else ⟨0x10000000000000 + fraction, (field : Int) - 1075, fraction = 0 && 1 < field⟩

/-- Compare `a * 10 ^ i` with `n * 2 ^ j` exactly. -/
def compareScaled (a : Nat) (i : Int) (n : Nat) (j : Int) : Ordering :=
  compare (a * scale 10 i * scale 2 (-j)) (n * scale 2 j * scale 10 (-i))

/-- The decimal lies in the interval of reals that round to this double. The ends
belong to the interval when the mantissa is even, because ties go to even. -/
def readsBack (x : Dyadic) (d : Decimal) : Bool :=
  let low := if x.narrowBelow then 4 * x.mantissa - 1 else 4 * x.mantissa - 2
  let high := 4 * x.mantissa + 2
  let closed := x.mantissa % 2 == 0
  let fromLow := compareScaled d.digits d.exponent low (x.exponent - 2)
  let fromHigh := compareScaled d.digits d.exponent high (x.exponent - 2)
  (fromLow == .gt || (closed && fromLow == .eq)) && (fromHigh == .lt || (closed && fromHigh == .eq))

/-- The value divided by `10 ^ i`, rounded down. -/
def floorAt (x : Dyadic) (i : Int) : Nat :=
  (x.mantissa * scale 2 x.exponent * scale 10 (-i)) / (scale 2 (-x.exponent) * scale 10 i)

/-- The least power of ten above the value, found near the estimate that the binary
logarithm gives. -/
def magnitude (x : Dyadic) : Int :=
  let estimate := ((x.mantissa.log2 : Int) + x.exponent) * 30103 / 100000
  ([estimate - 1, estimate, estimate + 1, estimate + 2].find? fun k => x.floorAt k == 0).getD
    (estimate + 3)

/-- The better of the two decimals around the value on the grid of multiples of
`10 ^ i`, if either reads back. The nearer one wins, and the even one on a tie. -/
def onGrid (x : Dyadic) (i : Int) : Option Decimal :=
  let below := x.floorAt i
  let under : Decimal := ⟨below, i⟩
  let above : Decimal := ⟨below + 1, i⟩
  match x.readsBack under, x.readsBack above with
  | true, true =>
    match compareScaled (2 * below + 1) i (2 * x.mantissa) x.exponent with
    | .gt => some under
    | .lt => some above
    | .eq => some (if below % 2 = 0 then under else above)
  | true, false => some under
  | false, true => some above
  | false, false => none

/-- The value itself as a decimal, for completeness of `shortest`. -/
def exact (x : Dyadic) : Decimal :=
  if 0 ≤ x.exponent then ⟨x.mantissa * scale 2 x.exponent, 0⟩
  else ⟨x.mantissa * scale 5 (-x.exponent), x.exponent⟩

/-- A decimal with the fewest digits that reads back as this double. -/
def shortest (x : Dyadic) : Decimal :=
  let top := x.magnitude
  ((List.range 17).findSome? fun n : Nat => x.onGrid (top - (n + 1))).getD x.exact

end Dyadic

end FlowDiagram.Number
