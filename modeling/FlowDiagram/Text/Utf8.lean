/-!
# Decoding bytes as text

Bytes are text when they form well-formed sequences: the shortest form of each code
point, and no surrogates. Otherwise the offset of the first byte of the first bad
sequence is reported.
-/

namespace FlowDiagram.Text

/-- A byte that continues a sequence. -/
def isContinuation (b : UInt8) : Bool := 0x80 ≤ b && b < 0xC0

def payload (b : UInt8) : Nat := b.toNat % 0x40

/-- The code point at the beginning of the bytes, and the bytes behind it. -/
def decodeOne : List UInt8 → Option (Char × List UInt8)
  | [] => none
  | a :: rest =>
    if a < 0x80 then some (Char.ofNat a.toNat, rest)
    else if 0xC2 ≤ a && a < 0xE0 then
      match rest with
      | b :: rest =>
        if isContinuation b then some (Char.ofNat (a.toNat % 0x20 * 0x40 + payload b), rest)
        else none
      | _ => none
    else if 0xE0 ≤ a && a < 0xF0 then
      match rest with
      | b :: c :: rest =>
        let n := a.toNat % 0x10 * 0x1000 + payload b * 0x40 + payload c
        if isContinuation b && isContinuation c && 0x800 ≤ n && !(0xD800 ≤ n && n < 0xE000) then
          some (Char.ofNat n, rest)
        else none
      | _ => none
    else if 0xF0 ≤ a && a < 0xF5 then
      match rest with
      | b :: c :: d :: rest =>
        let n := a.toNat % 0x08 * 0x40000 + payload b * 0x1000 + payload c * 0x40 + payload d
        if isContinuation b && isContinuation c && isContinuation d && 0x10000 ≤ n && n < 0x110000 then
          some (Char.ofNat n, rest)
        else none
      | _ => none
    else none

/-- Decode at most as many code points as the first number says; the second number is
the offset of the next byte. -/
def decodeFrom : Nat → Nat → List UInt8 → Except Nat (List Char)
  | _, _, [] => .ok []
  | 0, offset, _ => .error offset
  | fuel + 1, offset, bs =>
    match decodeOne bs with
    | none => .error offset
    | some (c, rest) =>
      (decodeFrom fuel (offset + (bs.length - rest.length)) rest).map (c :: ·)

/-- The text that the bytes encode, or the offset of the first bad sequence. -/
def decode (bs : List UInt8) : Except Nat (List Char) := decodeFrom bs.length 0 bs

/-- The least and the greatest byte that may follow a leading byte. -/
def secondBounds (a : UInt8) : UInt8 × UInt8 :=
  if a = 0xE0 then (0xA0, 0xBF)
  else if a = 0xED then (0x80, 0x9F)
  else if a = 0xF0 then (0x90, 0xBF)
  else if a = 0xF4 then (0x80, 0x8F)
  else (0x80, 0xBF)

/-- The length of the longest beginning of a code point, for bytes that hold no whole one. -/
def brokenLength : List UInt8 → Nat
  | a :: b :: rest =>
    let (low, high) := secondBounds a
    if a < 0xE0 || 0xF5 ≤ a || b < low || high < b then 1
    else if a < 0xF0 then 2
    else
      match rest with
      | c :: _ => if isContinuation c then 3 else 2
      | [] => 2
  | _ => 1

/-- Decode at most as many pieces as the number says. -/
def decodeLossyFrom : Nat → List UInt8 → List Char
  | 0, _ | _, [] => []
  | fuel + 1, b :: bs =>
    match decodeOne (b :: bs) with
    | some (c, rest) => c :: decodeLossyFrom fuel rest
    | none => '\uFFFD' :: decodeLossyFrom fuel ((b :: bs).drop (brokenLength (b :: bs)))

/-- The text that bytes encode, with a replacement character for each broken code point. -/
def decodeLossy (bs : List UInt8) : List Char := decodeLossyFrom bs.length bs

end FlowDiagram.Text
