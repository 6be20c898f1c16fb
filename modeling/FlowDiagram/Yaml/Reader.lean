import FlowDiagram.Document.Value
import FlowDiagram.Text.Base64
import FlowDiagram.Text.Blank
import FlowDiagram.Text.Digit
import FlowDiagram.Text.Lowercase
import FlowDiagram.Yaml.Node
import FlowDiagram.Yaml.Tokens
/-!
# From nodes to values

Nodes are given their values from the root on. A scalar has its value at once; the parts
of a collection are looked at when those of all collections met before have been, so of
several faults the one nearest to the root is reported, and among those equally near the
first in the text.

In a mapping the entries of merged mappings come first and give way to its own. Merging
changes the node of a mapping, and so do its keys `=`, which become ordinary texts: if the
document names such a node in another place, its value there shows the change.

Integers in decimal digits are refused when they have too many. In other bases any number
of digits is read, but what is then too long to be written in decimal is no value.
-/

namespace FlowDiagram.Yaml

open Document

/-! ### Scalars -/

/-- The digits of all scripts as ASCII digits, and all white space as spaces. -/
def plainDigits (s : String) : List Char :=
  s.toList.map fun c =>
    match Text.decimalDigit? c with
    | some n => Nat.digitChar n
    | none => if Text.isWhite c then ' ' else c

/-- The value of a digit in bases up to 16. -/
def digitIn? (base : Nat) (c : Char) : Option Nat :=
  (Number.hexValue? c).filter (· < base)

/-- The text behind the letter that announces a base. -/
def withoutBase (base : Nat) : List Char → List Char
  | '0' :: c :: cs =>
    let letter := if base = 2 then 'b' else if base = 8 then 'o' else if base = 16 then 'x' else '0'
    if c.toLower = letter ∧ letter ≠ '0' then cs else '0' :: c :: cs
  | cs => cs

/-- The number of digits in front of whatever else is there. -/
def leadingDigits (ds : List Char) : Nat := (ds.takeWhile Char.isDigit).length

/-- An integer in a base, with blanks around it and a sign. -/
def integerIn (base : Nat) (s : String) : Except Fault Int :=
  let (negative, body) := Number.splitSign (Text.trim (· == ' ') (plainDigits s))
  let ds := withoutBase base body
  if base = 10 ∧ Number.mostDigits < leadingDigits ds then .error (.longInteger (leadingDigits ds))
  else
    let n := ds.foldl (fun n c => n.bind fun n => (digitIn? base c).map (base * n + ·)) (some 0)
    match if ds.isEmpty then none else n with
    | none => .error (.integer base s)
    | some n => .ok (if negative then -(n : Int) else n)

/-- An integer as a value. -/
def integerValue (n : Int) : Except Fault Value :=
  if Number.isShort n then .ok (.int n) else .error (.foreign .longInteger)

/-- The text between the colons of a scalar with base 60. -/
def sixtieths (cs : List Char) : List String := (Kind.colonParts cs).map String.ofList

/-- An integer scalar. Underscores only separate digits. -/
def integer (text : String) : Except Fault Value :=
  let cs := text.toList.filter (· != '_')
  let body := Kind.unsigned cs
  let signed (r : Except Fault Int) : Except Fault Value :=
    r.bind fun n => integerValue (if cs.head? = some '-' then -n else n)
  match body with
  | [] => .error .noDigits
  | ['0'] => .ok (.int 0)
  | '0' :: 'b' :: ds => signed (integerIn 2 (String.ofList ds))
  | '0' :: 'x' :: ds => signed (integerIn 16 (String.ofList ds))
  | '0' :: _ => signed (integerIn 8 (String.ofList body))
  | _ =>
    if body.contains ':' then
      signed ((sixtieths body).foldlM (fun n part => (integerIn 10 part).map (60 * n + ·)) 0)
    else signed (integerIn 10 (String.ofList body))

/-- A number with blanks around it. -/
def float (s : String) : Except Fault Float :=
  match Number.read? (Text.trim (· == ' ') (plainDigits s)) with
  | some x => .ok x
  | none => .error (.number s)

/-- Digits of a number with base 60, from the lowest up. -/
def sixtiethSum : List Float → Nat → Float → Except Fault Float
  | [], _, total => .ok total
  | x :: xs, unit, total =>
    let count := Number.nearest unit 0
    if isFinite count then sixtiethSum xs (60 * unit) (total + x * count)
    else .error .beyondDoubles

def number (text : String) : Except Fault Value :=
  let cs := Text.lowercase (text.toList.filter (· != '_'))
  let body := Kind.unsigned cs
  let sign (x : Float) : Value := .float (if cs.head? = some '-' then -x else x)
  if cs.isEmpty then .error .noDigits
  else if body = ".inf".toList then .ok (sign Number.infinity)
  else if body = ".nan".toList then .ok (.float Number.notANumber)
  else if body.contains ':' then do
    let xs ← (sixtieths body).mapM float
    (sixtiethSum xs.reverse 1 0.0).map sign
  else (float (String.ofList body)).map sign

/-- A truth value, in any of its six words. -/
def truth (text : String) : Except Fault Value :=
  let word := String.ofList (Text.lowercase text.toList)
  if ["yes", "true", "on"].contains word then .ok (.bool true)
  else if ["no", "false", "off"].contains word then .ok (.bool false)
  else .error (.truth word)

/-- A date, or a moment if a time of day is given. -/
def time (text : String) : Except Fault Value :=
  match writtenTime? (Kind.withoutFinalBreak text.toList) with
  | none => .error .time
  | some t =>
    if t.hasClock then
      match t.moment.fault? with
      | some fault => .error (.calendar fault)
      | none => .ok (.moment t.moment)
    else
      match t.moment.date.fault? with
      | some fault => .error (.calendar fault)
      | none => .ok (.date t.moment.date)

/-- Bytes in base 64. -/
def binary (text : String) : Except Fault Value :=
  let cs := text.toList
  match if cs.all (·.toNat < 0x80) then Text.base64? cs else none with
  | some bs => .ok (.bytes bs)
  | none => .error .malformed

def scalarValue (kind : Kind) (text : String) : Except Fault Value :=
  match kind with
  | .null => .ok .null
  | .truth => truth text
  | .integer => integer text
  | .number => number text
  | .text => .ok (.str text)
  | .binary => binary text
  | .time => time text
  | .seq | .map | .pairs | .set | .merge | .whole | .unknown => .error .malformed

namespace Nodes

/-- The kind of a node; there is none at other places. -/
def kindAt (nodes : Nodes) (place : Nat) : Kind := (nodes[place]?.map (·.kind)).getD .unknown

def contentAt (nodes : Nodes) (place : Nat) : Content :=
  (nodes[place]?.map (·.content)).getD (.scalar "")

/-- The scalar that a node stands for. A mapping stands for the value of its key `=`. The
first number bounds the height of the node. -/
def scalarText (nodes : Nodes) : Nat → Nat → Except Fault String
  | 0, _ => .error .malformed
  | fuel + 1, place =>
    match nodes.contentAt place with
    | .scalar text => .ok text
    | .seq _ => .error .malformed
    | .map entries =>
      match entries.find? fun (k, _) => nodes.kindAt k = .whole with
      | some (_, v) => nodes.scalarText fuel v
      | none => .error .malformed

/-- Make an ordinary text of a key `=`. -/
def asKey (nodes : Nodes) (place : Nat) : Nodes :=
  nodes.modify place fun n => if n.kind = .whole then { n with kind := .text } else n

/-- The entries of a mapping; no other node has any. -/
def entriesAt (nodes : Nodes) (place : Nat) : List (Nat × Nat) :=
  match nodes.contentAt place with
  | .map entries => entries
  | _ => []

/-- Put the entries of merged mappings in front of the own ones of a mapping, and make
ordinary texts of its keys `=`. Of several mappings that are merged at once, later ones
come first, so that earlier ones overwrite them. The first number bounds the height of
the node. -/
def flatten : Nat → Nat → Nodes → Except Fault Nodes
  | 0, _, _ => .error .malformed
  | fuel + 1, place, nodes =>
    match nodes.contentAt place with
    | .map entries => do
      let (nodes, merged, own) ← entries.foldlM (fun (nodes, merged, own) (k, v) =>
        if nodes.kindAt k = .merge then
          match nodes.contentAt v with
          | .map _ => do
            let nodes ← flatten fuel v nodes
            .ok (nodes, merged ++ nodes.entriesAt v, own)
          | .seq items => do
            let (nodes, sources) ← items.foldlM (fun (nodes, sources) item =>
              match nodes.contentAt item with
              | .map _ => do
                let nodes ← flatten fuel item nodes
                .ok (nodes, nodes.entriesAt item ++ sources)
              | _ => .error .malformed) (nodes, [])
            .ok (nodes, merged ++ sources, own)
          | .scalar _ => .error .malformed
        else .ok (nodes.asKey k, merged, (k, v) :: own)) (nodes, [], [])
      .ok (nodes.modify place fun n => { n with content := .map (merged ++ own.reverse) })
    | _ => .error .malformed

end Nodes

/-- What is known about the value of a node. -/
inductive Part where
  /-- A scalar; an undefined number may be the one that is written as such a word. -/
  | scalar (v : Value) (word : Bool)
  /-- A collection whose parts have not been looked at. -/
  | unknown
  | seq (items : List Nat)
  | map (entries : List (Nat × Value × Nat))
  | pairs (entries : List (Nat × Nat))

/-- The nodes of a document, what is known about their values, and the collections whose
parts are to be looked at next, the last one first. -/
structure Building where
  nodes : Nodes
  parts : Array (Option Part)
  waiting : List Nat

namespace Building

def bound (b : Building) : Nat := b.nodes.size

/-- Note what is known about a node. -/
def note (b : Building) (place : Nat) (p : Part) : Building :=
  { b with parts := b.parts.set! place (some p) }

def part? (b : Building) (place : Nat) : Option Part := b.parts[place]?.join

/-- The text behind the sign is the word for the undefined number. -/
def isUndefinedWord (text : String) : Bool :=
  Kind.unsigned (Text.lowercase (text.toList.filter (· != '_'))) == ".nan".toList

/-- Begin with the value of a node: find that of a scalar, and let a collection wait. A node
that was met before is left as it is. -/
def meet (b : Building) (place : Nat) : Except Fault Building :=
  if (b.part? place).isSome then .ok b
  else
    match b.nodes.kindAt place with
    | .seq | .map | .pairs | .set =>
      .ok { b.note place .unknown with waiting := place :: b.waiting }
    | kind => do
      let text ← b.nodes.scalarText b.bound place
      match kind, b.nodes.contentAt place with
      | .time, .map _ => .error .compoundTime
      | _, _ =>
        let v ← scalarValue kind text
        .ok (b.note place (.scalar v (isUndefinedWord text)))

/-- Two keys of a mapping are the same. An undefined number is the same key only as itself,
and all that are written as the word are one. -/
def sameKey (b : Building) (p : Nat) (v : Value) (q : Nat) (w : Value) : Bool :=
  let isWord (place : Nat) : Bool :=
    match b.part? place with
    | some (.scalar (.float x) word) => isUndefined x && word
    | _ => false
  p == q || v.sameKey w || (isWord p && isWord q)

/-- Write an entry of a mapping. A present key keeps its place and its spelling. -/
def put (b : Building) (key : Nat) (v : Value) (value : Nat) :
    List (Nat × Value × Nat) → List (Nat × Value × Nat)
  | [] => [(key, v, value)]
  | (p, w, old) :: rest =>
    if b.sameKey p w key v then (p, w, value) :: rest else (p, w, old) :: b.put key v value rest

/-- Look at the items of a sequence. -/
def items (b : Building) (place : Nat) : Except Fault Building :=
  match b.nodes.contentAt place with
  | .seq items => do
    let b ← items.foldlM meet b
    .ok (b.note place (.seq items))
  | _ => .error .malformed

/-- Look at the entries of a mapping. Collections cannot be keys. -/
def entries (b : Building) (place : Nat) : Except Fault Building := do
  let nodes ← b.nodes.flatten b.bound place
  let (b, written) ← (nodes.entriesAt place).foldlM (fun (b, written) (k, v) => do
    let b ← Building.meet b k
    match b.part? k with
    | some (.scalar key _) =>
      let b ← b.meet v
      .ok (b, b.put k key v written)
    | _ => .error .malformed) ({ b with nodes }, [])
  .ok (b.note place (.map written))

/-- Look at the entries of a list of single entries. -/
def singles (b : Building) (place : Nat) : Except Fault Building :=
  match b.nodes.contentAt place with
  | .seq items => do
    let (b, written) ← items.foldlM (fun (b, written) item =>
      match b.nodes.contentAt item with
      | .map [(k, v)] => do
        let b ← Building.meet b k
        let b ← b.meet v
        .ok (b, (k, v) :: written)
      | _ => .error .malformed) (b, [])
    .ok (b.note place (.pairs written.reverse))
  | _ => .error .malformed

/-- Look at a set. -/
def noSet (b : Building) (place : Nat) : Except Fault Building :=
  match b.nodes.contentAt place with
  | .map _ => .error (.foreign .set)
  | _ => .error .malformed

/-- Look at the parts of a collection. -/
def look (b : Building) (place : Nat) : Except Fault Building :=
  match b.nodes.kindAt place with
  | .seq => b.items place
  | .map => b.entries place
  | .pairs => b.singles place
  | .set => b.noSet place
  | _ => .ok b

/-- Look at the parts of all collections that wait, and then of those met on the way. Every
round meets a node that was not met before. -/
def complete : Nat → Building → Except Fault Building
  | 0, b => .ok b
  | fuel + 1, b =>
    match b.waiting with
    | [] => .ok b
    | places => do
      let b ← places.reverse.foldlM look { b with waiting := [] }
      b.complete fuel

/-- The value of a node whose parts are all known. The first number bounds the height of the
node. -/
def value (b : Building) : Nat → Nat → Value
  | 0, _ => .null
  | fuel + 1, place =>
    match b.part? place with
    | some (.scalar v _) => v
    | some (.seq items) => .seq (items.map (b.value fuel))
    | some (.map entries) => .map (entries.map fun (_, key, v) => (key, b.value fuel v))
    | some (.pairs entries) => .seq (entries.map fun (k, v) => .pair (b.value fuel k) (b.value fuel v))
    | some .unknown | none => .null

end Building

/-- The value of the root of a document. -/
def Tree.value (t : Tree) : Except Fault Value := do
  let size := t.nodes.size
  let b ← Building.meet ⟨t.nodes, Array.replicate size none, []⟩ t.root
  let b ← b.complete size
  .ok (b.value size t.root)

/-- The value of the document in a text; no document is null. -/
def read (text : List Char) : Except Fault Value := do
  match ← Tree.ofTokens (tokens text) with
  | none => .ok .null
  | some t => t.value

end FlowDiagram.Yaml
