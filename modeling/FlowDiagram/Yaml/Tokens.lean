import FlowDiagram.Yaml.Scalar
import FlowDiagram.Yaml.Tag
/-!
# From text to tokens

Block collections are opened and closed by indentation. The indentation of the innermost
one is compared with the column of each token: a deeper entry or key opens a collection,
a shallower token closes some.

A key without a question mark is recognised only at the colon behind it. Wherever such a
key may begin, the place is remembered for each level of flow collections; when the colon
comes on the same line and within 1024 characters, the `key` token is put in front of
the tokens read since. A remembered key at the indentation of its block is required to
be one.

A token is final only when no key can be put in front of it any more. Where the text makes
no sense, the tokens end with the first one that is not final, for what precedes it is
all that can be understood by then.
-/

namespace FlowDiagram.Yaml

/-- A place where a key without a question mark may have begun. -/
structure PendingKey where
  /-- The number of tokens before it. -/
  before : Nat
  required : Bool
  offset : Nat
  line : Nat
  column : Nat
  deriving Repr

/-- The state between two tokens. The tokens are kept in reverse order. -/
structure Lexer where
  cursor : Cursor
  tokens : List Token
  flowDepth : Nat
  /-- The column of the innermost block collection, or -1 outside of all. -/
  indent : Int
  outer : List Int
  keyAllowed : Bool
  pending : List (Nat × PendingKey)
  finished : Bool
  deriving Repr

namespace Lexer

/-- Before the first token a key may begin. -/
def start (text : List Char) : Lexer := ⟨.start text, [], 0, -1, [], true, [], false⟩

def inFlow (s : Lexer) : Bool := s.flowDepth != 0

def push (s : Lexer) (t : Token) : Lexer := { s with tokens := t :: s.tokens }

/-- Put a token behind the first `n` tokens. -/
def insertAt (s : Lexer) (n : Nat) (t : Token) : Lexer :=
  { s with tokens := s.tokens.insertIdx (s.tokens.length - n) t }

/-- Append a token that is written with `n` characters. -/
def take (s : Lexer) (n : Nat) (t : Token) : Lexer := { s.push t with cursor := s.cursor.skip n }

/-- Skip blanks, comments and line breaks. Outside of flow collections a key may begin on
every new line. -/
def skipGap : Nat → Lexer → Lexer
  | 0, s => s
  | fuel + 1, s =>
    let c := (s.cursor.skipWhile (· == ' ')).skipComment
    match c.lineBreak with
    | ([], _) => { s with cursor := c }
    | (_, c) => skipGap fuel { s with cursor := c, keyAllowed := s.keyAllowed || !s.inFlow }

/-- The key can no longer be completed at the cursor. -/
def isStale (s : Lexer) (k : PendingKey) : Bool :=
  k.line != s.cursor.line || 1024 < s.cursor.offset - k.offset

/-- The keys that can no longer be completed are forgotten, unless one was required. -/
def dropStale (s : Lexer) : Except Fault Lexer :=
  if s.pending.any fun (_, k) => s.isStale k && k.required then .error .malformed
  else .ok { s with pending := s.pending.filter fun (_, k) => !s.isStale k }

/-- The tokens in front of which no key can be put any more, in reverse order. -/
def final (s : Lexer) : List Token :=
  let waiting := s.pending.filter fun (_, k) => !s.isStale k
  let count := waiting.foldl (fun n (_, k) => min n k.before) s.tokens.length
  s.tokens.drop (s.tokens.length - count)

/-- The number of collections that end before the column, and the indentations left. -/
def closing (column : Int) : Int → List Int → Nat × Int × List Int
  | indent, [] => (0, indent, [])
  | indent, next :: rest =>
    if column < indent then
      let (n, left) := closing column next rest
      (n + 1, left)
    else (0, indent, next :: rest)

/-- Close the block collections that are indented more than the column. -/
def unwind (column : Int) (s : Lexer) : Lexer :=
  if s.inFlow then s
  else
    let (n, indent, outer) := closing column s.indent s.outer
    { s with tokens := List.replicate n .closeBlock ++ s.tokens, indent, outer }

/-- A block collection begins at a column if that is deeper than the innermost one. -/
def opens (s : Lexer) (column : Nat) : Bool := s.indent < column

/-- Note the beginning of a block collection. -/
def indentTo (s : Lexer) (column : Nat) : Lexer :=
  { s with indent := column, outer := s.indent :: s.outer }

/-- Forget the key that is pending at this level. -/
def dropPending (s : Lexer) : Except Fault Lexer :=
  match s.pending.lookup s.flowDepth with
  | none => .ok s
  | some k =>
    if k.required then .error .malformed
    else .ok { s with pending := s.pending.filter fun (level, _) => level != s.flowDepth }

/-- Remember that a key may begin with the next token. -/
def savePending (s : Lexer) : Except Fault Lexer :=
  if s.keyAllowed then do
    let required := !s.inFlow && s.indent == (s.cursor.column : Int)
    let k : PendingKey :=
      ⟨s.tokens.length, required, s.cursor.offset, s.cursor.line, s.cursor.column⟩
    let s ← s.dropPending
    .ok { s with pending := (s.flowDepth, k) :: s.pending }
  else .ok s

/-- Close everything before a line that belongs to no document. -/
def leaveBlocks (s : Lexer) : Except Fault Lexer := do
  let s ← (s.unwind (-1)).dropPending
  .ok { s with keyAllowed := false }

/-- The end of the text. -/
def finish (s : Lexer) : Except Fault Lexer := do
  let s ← s.leaveBlocks
  .ok { s.push .textEnd with pending := [], finished := true }

/-- The beginning of a flow collection. -/
def openFlow (s : Lexer) (t : Token) : Except Fault Lexer := do
  let s ← s.savePending
  .ok { s.take 1 t with flowDepth := s.flowDepth + 1, keyAllowed := true }

/-- The end of a flow collection. -/
def closeFlow (s : Lexer) (t : Token) : Except Fault Lexer := do
  let s ← s.dropPending
  .ok { s.take 1 t with flowDepth := s.flowDepth - 1, keyAllowed := false }

/-- Open a block collection at the cursor if its first entry or key stands there. -/
def openBlock (s : Lexer) (t : Token) : Lexer :=
  if s.opens s.cursor.column then (s.push t).indentTo s.cursor.column else s

/-- The hyphen of a sequence entry. -/
def entry (s : Lexer) : Except Fault Lexer := do
  if !s.inFlow && !s.keyAllowed then .error .malformed
  let s := if s.inFlow then s else s.openBlock .openBlockSeq
  let s ← s.dropPending
  .ok { s.take 1 .entry with keyAllowed := true }

/-- The question mark of a key. -/
def key (s : Lexer) : Except Fault Lexer := do
  if !s.inFlow && !s.keyAllowed then .error .malformed
  let s := if s.inFlow then s else s.openBlock .openBlockMap
  let s ← s.dropPending
  .ok { s.take 1 .key with keyAllowed := !s.inFlow }

/-- The colon of a value, which completes a pending key if there is one. -/
def value (s : Lexer) : Except Fault Lexer := do
  match s.pending.lookup s.flowDepth with
  | some k =>
    let s := { s with pending := s.pending.filter fun (level, _) => level != s.flowDepth }
    let s := s.insertAt k.before .key
    let s :=
      if !s.inFlow && s.opens k.column then (s.insertAt k.before .openBlockMap).indentTo k.column
      else s
    .ok { s.take 1 .value with keyAllowed := false }
  | none => do
    if !s.inFlow && !s.keyAllowed then .error .malformed
    let s := if s.inFlow then s else s.openBlock .openBlockMap
    let s ← s.dropPending
    .ok { s.take 1 .value with keyAllowed := !s.inFlow }

/-- A token that may itself begin a key. -/
def leaf (s : Lexer) (read : Cursor → Except Fault (Token × Cursor)) : Except Fault Lexer := do
  let s ← s.savePending
  let (t, cursor) ← read s.cursor
  .ok { s.push t with cursor, keyAllowed := false }

def quoted (s : Lexer) (double : Bool) : Except Fault Lexer :=
  s.leaf fun c => (Scalar.quoted double c).map fun (text, c) => (.scalar (String.ofList text) false, c)

/-- A plain scalar. A key may begin behind it if it ended with a line. -/
def plain (s : Lexer) : Except Fault Lexer := do
  let s ← s.savePending
  let p := Scalar.plain s.inFlow s.indent s.cursor
  .ok { s.push (.scalar (String.ofList p.text) true) with cursor := p.cursor, keyAllowed := p.crossed }

def block (s : Lexer) (folded : Bool) : Except Fault Lexer := do
  let s ← s.dropPending
  let (text, cursor) ← Scalar.block folded s.indent s.cursor
  .ok { s.push (.scalar (String.ofList text) false) with cursor, keyAllowed := true }

/-- A plain scalar may begin with this character. The indicators of entries, keys and
values begin one when no gap follows. -/
def beginsPlain (s : Lexer) : Bool :=
  let ch := s.cursor.peek
  let indicators := "-?:,[]\x7b\x7d#&*!|>'\"%@\x60".toList
  (!isGap ch && !indicators.contains ch) ||
    (!isGap (s.cursor.peekAt 1) && (ch == '-' || (!s.inFlow && (ch == '?' || ch == ':'))))

def token (s : Lexer) : Except Fault Lexer :=
  let c := s.cursor
  let gapNext := isGap (c.peekAt 1)
  match c.rest with
  | [] => s.finish
  | ch :: _ =>
    if ch == '%' && c.column == 0 then do
      let s ← s.leaveBlocks
      let (d, cursor) ← directive s.cursor
      .ok { s.push (.directive d) with cursor }
    else if c.column == 0 && c.atSeparator then do
      let s ← s.leaveBlocks
      .ok (s.take 3 (if ch == '-' then .documentStart else .documentEnd))
    else if ch == '[' then s.openFlow .openFlowSeq
    else if ch == '\x7b' then s.openFlow .openFlowMap
    else if ch == ']' then s.closeFlow .closeFlowSeq
    else if ch == '\x7d' then s.closeFlow .closeFlowMap
    else if ch == ',' then do
      let s ← s.dropPending
      .ok { s.take 1 .comma with keyAllowed := true }
    else if ch == '-' && gapNext then s.entry
    else if ch == '?' && (s.inFlow || gapNext) then s.key
    else if ch == ':' && (s.inFlow || gapNext) then s.value
    else if ch == '*' then s.leaf fun c => (name c).map fun (n, c) => (.alias n, c)
    else if ch == '&' then s.leaf fun c => (name c).map fun (n, c) => (.anchor n, c)
    else if ch == '!' then s.leaf tag
    else if ch == '|' && !s.inFlow then s.block false
    else if ch == '>' && !s.inFlow then s.block true
    else if ch == '\'' then s.quoted false
    else if ch == '"' then s.quoted true
    else if s.beginsPlain then s.plain
    else .error .malformed

/-- Move on to the next token and read it. -/
def step (s : Lexer) : Except Fault Lexer := do
  let s := s.skipGap (s.cursor.rest.length + 1)
  let s ← s.dropStale
  (s.unwind s.cursor.column).token

/-- Read tokens until the text ends or makes no sense. -/
def run : Nat → Lexer → List Token
  | 0, s => s.tokens.reverse
  | fuel + 1, s =>
    if s.finished then s.tokens.reverse
    else
      match s.step with
      | .ok s => run fuel s
      | .error fault => (Token.broken fault :: s.final).reverse

end Lexer

/-- The tokens of a text. A byte order mark at the beginning is skipped; a character
that no text may contain breaks it as a whole. -/
def tokens (text : List Char) : List Token :=
  if !text.all isReadable then [.broken .malformed]
  else
    let body := match text with
      | '\uFEFF' :: rest => rest
      | _ => text
    (Lexer.start body).run (text.length + 2)

end FlowDiagram.Yaml
