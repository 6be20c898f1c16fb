/-!
# Positions in a text

A cursor is the part of the text that is still to be read, with the line, the column and
the offset of its first character. Columns count from zero; a byte order mark takes no
column. The end of the text reads as the zero character, which no readable text contains.
-/

namespace FlowDiagram.Yaml

/-- A character that ends a line. -/
def isBreak (c : Char) : Bool :=
  c == '\n' || c == '\r' || c == '\x85' || c == '\u2028' || c == '\u2029'

/-- The end of the text or of a line. -/
def endsLine (c : Char) : Bool := c == '\x00' || isBreak c

/-- A blank, or the end of a line. -/
def endsWord (c : Char) : Bool := c == ' ' || endsLine c

/-- A blank or a tab, or the end of a line. -/
def isGap (c : Char) : Bool := c == '\t' || endsWord c

/-- A character of names: an ASCII letter or digit, a hyphen or an underscore. -/
def isWordChar (c : Char) : Bool := c.isAlphanum || c == '-' || c == '_'

/-- The character may occur in a text at all. -/
def isReadable (c : Char) : Bool :=
  let n := c.toNat
  n == 0x09 || n == 0x0A || n == 0x0D || (0x20 ≤ n && n ≤ 0x7E) || n == 0x85 ||
    (0xA0 ≤ n && n ≤ 0xD7FF) || (0xE000 ≤ n && n ≤ 0xFFFD) || 0x10000 ≤ n

/-- The unread part of a text and its place. -/
structure Cursor where
  rest : List Char
  line : Nat
  column : Nat
  offset : Nat
  deriving Repr

namespace Cursor

def start (text : List Char) : Cursor := ⟨text, 0, 0, 0⟩

/-- The character `n` places ahead. -/
def peekAt (c : Cursor) (n : Nat) : Char := (c.rest[n]?).getD '\x00'

def peek (c : Cursor) : Char := c.rest.headD '\x00'

/-- The cursor behind the next character. A carriage return before a line feed does not
end the line yet. -/
def next (c : Cursor) : Cursor :=
  match c.rest with
  | [] => c
  | ch :: rest =>
    let splits := isBreak ch && !(ch == '\r' && rest.head? == some '\n')
    if splits then ⟨rest, c.line + 1, 0, c.offset + 1⟩
    else if ch == '\uFEFF' then ⟨rest, c.line, c.column, c.offset + 1⟩
    else ⟨rest, c.line, c.column + 1, c.offset + 1⟩

/-- The cursor behind the next `n` characters. -/
def skip : Nat → Cursor → Cursor
  | 0, c => c
  | n + 1, c => skip n c.next

/-- The longest run of characters of a class, and the cursor behind it. -/
def span (p : Char → Bool) (c : Cursor) : List Char × Cursor :=
  let run := c.rest.takeWhile p
  (run, c.skip run.length)

/-- The cursor behind a run of characters of a class. -/
def skipWhile (p : Char → Bool) (c : Cursor) : Cursor := (c.span p).2

/-- A line break, as it counts in scalars, and the cursor behind it. All breaks count as
a line feed except the line and paragraph separators. Without a break nothing is read. -/
def lineBreak (c : Cursor) : List Char × Cursor :=
  match c.rest with
  | '\r' :: '\n' :: _ => (['\n'], c.skip 2)
  | ch :: _ =>
    if ch == '\u2028' || ch == '\u2029' then ([ch], c.next)
    else if isBreak ch then (['\n'], c.next)
    else ([], c)
  | [] => ([], c)

/-- A line of three hyphens or three points, alone or followed by a gap, separates
documents. -/
def atSeparator (c : Cursor) : Bool :=
  let three := c.rest.take 3
  (three == ['-', '-', '-'] || three == ['.', '.', '.']) && isGap (c.peekAt 3)

/-- The cursor behind a comment, if one begins here. -/
def skipComment (c : Cursor) : Cursor :=
  if c.peek == '#' then c.skipWhile (!isBreak ·) else c

end Cursor

end FlowDiagram.Yaml
