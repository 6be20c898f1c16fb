/-!
# Halves of code points

Code points beyond `U+FFFF` may be written as two halves, which have numbers of their
own. A half on its own is no character.
-/

namespace FlowDiagram.Text

/-- The number marks a first half. -/
def isHighHalf (n : Nat) : Bool := 0xD800 ≤ n && n < 0xDC00

/-- The number marks a second half. -/
def isLowHalf (n : Nat) : Bool := 0xDC00 ≤ n && n < 0xE000

/-- The character with a number, which must not be that of a half. -/
def char? (n : Nat) : Option Char :=
  if isHighHalf n || isLowHalf n then none else some (Char.ofNat n)

/-- The character of which two halves are given. -/
def charOfHalves (high low : Nat) : Char :=
  Char.ofNat (0x10000 + (high - 0xD800) * 0x400 + (low - 0xDC00))

end FlowDiagram.Text
