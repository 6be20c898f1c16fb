import FlowDiagram.Document.Calendar
import FlowDiagram.Number.Decimal
/-!
# Document values

A document is a tree of scalars, sequences and mappings. A mapping keeps the order in
which its keys first appeared; writing a key again changes the value and neither the
spelling nor the place of the key.

A text can hold what is no such tree (`Foreign`). It is reported, and not read as
something else.

Numbers are compared as keys by what they denote: the integer one, the double one and
`true` are the same key. No undefined number is the same key as another value. Sequences
and mappings cannot be keys.
-/

namespace FlowDiagram.Document

/-- A value read from a document. A `pair` is an entry of an ordered list of keys and
values, which is no mapping. -/
inductive Value where
  | null
  | bool (b : Bool)
  | int (n : Int)
  | float (x : Float)
  | str (s : String)
  | bytes (bs : List UInt8)
  | date (d : Date)
  | moment (t : Moment)
  | pair (key value : Value)
  | seq (items : List Value)
  | map (entries : List (Value × Value))
  deriving Inhabited

/-- What a text may hold and no value is. -/
inductive Foreign where
  /-- Half of a code point, which is no character. -/
  | half
  /-- A set: its members have no order. -/
  | set
  /-- A collection that contains itself. -/
  | cycle
  /-- An integer with more digits than are written. -/
  | longInteger
  deriving DecidableEq, Repr

def Foreign.message : Foreign → String
  | .half => "half of a code point"
  | .set => "a set"
  | .cycle => "a collection that contains itself"
  | .longInteger => "an integer with too many digits"

/-- The integer that a double denotes, if it denotes one. -/
def integral? (x : Float) : Option Int :=
  let bits := x.toBits
  if (bits >>> 52) &&& 0x7FF == 0x7FF then none
  else
    let d := Number.Dyadic.ofBits bits
    let unit := Number.scale 2 (-d.exponent)
    if d.mantissa % unit = 0 then
      let n := d.mantissa / unit * Number.scale 2 d.exponent
      some (if bits >>> 63 == 1 then -(n : Int) else n)
    else none

/-- The integer fits into 64 bits with a sign. -/
def fitsWord (n : Int) : Bool := -9223372036854775808 ≤ n && n < 9223372036854775808

def isFinite (x : Float) : Bool := (x.toBits >>> 52) &&& 0x7FF != 0x7FF

/-- The double is undefined. -/
def isUndefined (x : Float) : Bool := !isFinite x && x.toBits &&& 0xFFFFFFFFFFFFF != 0

namespace Value

/-- A mapping with textual keys. -/
def record (fields : List (String × Value)) : Value :=
  .map (fields.map fun (k, v) => (.str k, v))

def optional : Option String → Value
  | some s => .str s
  | none => .null

def texts (ss : List String) : Value := .seq (ss.map .str)

/-- Empty, zero, false and null values count as nothing; every other value counts. -/
def truthy : Value → Bool
  | .null => false
  | .bool b => b
  | .int n => n != 0
  | .float x => !(integral? x == some 0)
  | .str s => !s.isEmpty
  | .bytes bs => !bs.isEmpty
  | .date _ | .moment _ | .pair _ _ => true
  | .seq items => !items.isEmpty
  | .map entries => !entries.isEmpty

def isMap : Value → Bool
  | .map _ => true
  | _ => false

/-- The entries of a mapping; no other value has any. -/
def entries : Value → List (Value × Value)
  | .map es => es
  | _ => []

/-- The items of a sequence; no other value has any. -/
def items : Value → List Value
  | .seq xs => xs
  | _ => []

/-- The integer that a numeric key stands for. -/
def keyInt? : Value → Option Int
  | .bool b => some (if b then 1 else 0)
  | .int n => some n
  | .float x => integral? x
  | _ => none

/-- Two values are the same key of a mapping. -/
def sameKey (a b : Value) : Bool :=
  match a.keyInt?, b.keyInt? with
  | some m, some n => m == n
  | some _, none | none, some _ => false
  | none, none =>
    match a, b with
    | .null, .null => true
    | .float x, .float y => x == y
    | .str s, .str t => s == t
    | .bytes s, .bytes t => s == t
    | .date d, .date e => d == e
    | .moment s, .moment t => s.same t
    | _, _ => false

/-- Write an entry. A new key goes to the end; a present key keeps its place and its
spelling. -/
def put (key value : Value) : List (Value × Value) → List (Value × Value)
  | [] => [(key, value)]
  | (k, v) :: rest => if k.sameKey key then (k, value) :: rest else (k, v) :: put key value rest

/-- The mapping that results from writing entries in order. -/
def ofEntries (es : List (Value × Value)) : Value :=
  .map (es.foldl (fun acc (k, v) => put k v acc) [])

/-- The value under a textual key. -/
def get? (key : String) : Value → Option Value
  | .map es => (es.find? fun (k, _) => match k with | .str s => s == key | _ => false).map (·.2)
  | _ => none

end Value

end FlowDiagram.Document
