import FlowDiagram.Text.Half
/-!
# Wide encodings

In the wide encodings a text is a sequence of units of two or of four bytes, which may come
with the highest or with the lowest byte first. A unit of two bytes may be a half of a
code point; a half without the other one stands for no character.
-/

namespace FlowDiagram.Text

/-- The number that the bytes of a unit stand for, the highest byte first. -/
def unitValue (bs : List UInt8) : Nat := bs.foldl (fun n b => 0x100 * n + b.toNat) 0

/-- The units of two bytes, unless there is one byte too much. -/
def units16? (highFirst : Bool) : List UInt8 → Option (List Nat)
  | [] => some []
  | [_] => none
  | a :: b :: rest =>
    (units16? highFirst rest).map (unitValue (if highFirst then [a, b] else [b, a]) :: ·)

/-- The units of four bytes, unless the last one is broken. -/
def units32? (highFirst : Bool) : List UInt8 → Option (List Nat)
  | [] => some []
  | a :: b :: c :: d :: rest =>
    (units32? highFirst rest).map
      (unitValue (if highFirst then [a, b, c, d] else [d, c, b, a]) :: ·)
  | _ => none

/-- Why bytes are not read as a text. -/
inductive WideFault where
  /-- A unit is broken or stands for no code point. -/
  | broken
  /-- A half of a code point stands alone. -/
  | half
  deriving DecidableEq, Repr

/-- The characters that units of two bytes stand for, unless a half stands alone. -/
def joinHalves? : List Nat → Option (List Char)
  | [] => some []
  | [n] => (char? n).map ([·])
  | m :: n :: rest =>
    if isHighHalf m && isLowHalf n then (joinHalves? rest).map (charOfHalves m n :: ·)
    else do
      let c ← char? m
      let cs ← joinHalves? (n :: rest)
      some (c :: cs)

/-- The text of some units, of which none is broken. -/
def textOfUnits (text : List Nat → Option (List Char)) :
    Option (List Nat) → Except WideFault (List Char)
  | none => .error .broken
  | some units =>
    match text units with
    | none => .error .half
    | some cs => .ok cs

/-- The text that units of two bytes encode. -/
def decode16 (highFirst : Bool) (bs : List UInt8) : Except WideFault (List Char) :=
  textOfUnits joinHalves? (units16? highFirst bs)

/-- The text that units of four bytes encode. -/
def decode32 (highFirst : Bool) (bs : List UInt8) : Except WideFault (List Char) :=
  textOfUnits (·.mapM char?) ((units32? highFirst bs).filter (·.all (· < 0x110000)))

end FlowDiagram.Text
