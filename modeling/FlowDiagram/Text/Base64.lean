/-!
# Bytes written in base 64

Every four letters of the alphabet stand for three bytes. Other characters are skipped.
Equals signs that fill up a group of four end the text; a group that is neither full nor
filled up is refused.
-/

namespace FlowDiagram.Text

/-- The value of a letter of the alphabet. -/
def sextet? (c : Char) : Option Nat :=
  if 'A' ≤ c ∧ c ≤ 'Z' then some (c.toNat - 'A'.toNat)
  else if 'a' ≤ c ∧ c ≤ 'z' then some (c.toNat - 'a'.toNat + 26)
  else if '0' ≤ c ∧ c ≤ '9' then some (c.toNat - '0'.toNat + 52)
  else if c = '+' then some 62
  else if c = '/' then some 63
  else none

/-- Decode from the given place in a group of four: the bits that are left over from the
letter before, and the number of equals signs seen since. -/
def decodeGroup : (place left signs : Nat) → List Char → Option (List UInt8)
  | place, _, _, [] => if place = 0 then some [] else none
  | place, left, signs, c :: cs =>
    if c = '=' then
      if 2 ≤ place ∧ 4 ≤ place + (signs + 1) then some []
      else decodeGroup place left (if 2 ≤ place then signs + 1 else signs) cs
    else
      match sextet? c with
      | none => decodeGroup place left signs cs
      | some n =>
        match place with
        | 0 => decodeGroup 1 n 0 cs
        | 1 => (decodeGroup 2 (n % 16) 0 cs).map (UInt8.ofNat (left * 4 + n / 16) :: ·)
        | 2 => (decodeGroup 3 (n % 4) 0 cs).map (UInt8.ofNat (left * 16 + n / 4) :: ·)
        | _ => (decodeGroup 0 0 0 cs).map (UInt8.ofNat (left * 64 + n) :: ·)

/-- The bytes that a text encodes. -/
def base64? (cs : List Char) : Option (List UInt8) := decodeGroup 0 0 0 cs

end FlowDiagram.Text
