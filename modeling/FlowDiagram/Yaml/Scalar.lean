import FlowDiagram.Text.Half
import FlowDiagram.Yaml.Cursor
import FlowDiagram.Yaml.Fault
import FlowDiagram.Number.Reading
/-!
# Scalars

A scalar is plain, quoted, or a block of lines. Line breaks inside plain, quoted and
folded scalars become blanks where a single one stands between two lines of text, and
are kept otherwise.

Each reader takes the cursor at the first character of the scalar and returns its text
with the cursor behind it.
-/

namespace FlowDiagram.Yaml.Scalar

/-- A scalar's text and the cursor behind it. -/
abbrev Scanned := Except Fault (List Char × Cursor)

/-- A text that was joined from lines: one break counts as a blank, further ones stay. -/
def joint (first : List Char) (more : List Char) : List Char :=
  if first ≠ ['\n'] then first ++ more
  else if more.isEmpty then [' ']
  else more

/-! ### Quoted scalars -/

/-- The characters of one-letter escapes. -/
def escapeOf? (c : Char) : Option Char :=
  [('0', '\x00'), ('a', '\x07'), ('b', '\x08'), ('t', '\t'), ('\t', '\t'), ('n', '\n'), ('v', '\x0b'),
    ('f', '\x0c'), ('r', '\r'), ('e', '\x1b'), (' ', ' '), ('"', '"'), ('\\', '\\'), ('/', '/'),
    ('N', '\x85'), ('_', '\xa0'), ('L', '\u2028'), ('P', '\u2029')].lookup c

/-- The number of hexadecimal digits behind an escape letter. -/
def escapeWidth? (c : Char) : Option Nat := [('x', 2), ('u', 4), ('U', 8)].lookup c

/-- Line breaks and the blanks around them inside quotes. A separator of documents may
not stand there. -/
def quotedBreaks : Nat → Cursor → Scanned
  | 0, _ => .error .malformed
  | fuel + 1, c =>
    if c.atSeparator then .error .malformed
    else
      let c := c.skipWhile fun ch => ch == ' ' || ch == '\t'
      match c.lineBreak with
      | ([], c) => .ok ([], c)
      | (brk, c) => (quotedBreaks fuel c).map fun (more, c) => (brk ++ more, c)

/-- Blanks inside quotes, with at most one run of line breaks. -/
def quotedBlanks (c : Cursor) : Scanned :=
  let (blanks, c) := c.span fun ch => ch == ' ' || ch == '\t'
  if c.rest.isEmpty then .error .malformed
  else
    match c.lineBreak with
    | ([], c) => .ok (blanks, c)
    | (brk, c) => (quotedBreaks (c.rest.length + 1) c).map fun (more, c) => (joint brk more, c)

/-- What a backslash in double quotes stands for, from the character behind it on. -/
def escape (c : Cursor) : Scanned :=
  match escapeOf? c.peek with
  | some ch => .ok ([ch], c.next)
  | none =>
    match escapeWidth? c.peek with
    | some width =>
      let ds := c.next.rest.take width
      match if ds.length = width then Number.ofHex? ds else none with
      | none => .error .malformed
      | some n =>
        if 0x80000000 ≤ n then .error .wideEscape
        else if 0x110000 ≤ n then .error .codePoint
        else
          match Text.char? n with
          | some ch => .ok ([ch], c.next.skip width)
          | none => .error (.foreign .half)
    | none =>
      match c.lineBreak with
      | ([], _) => .error .malformed
      | (_, c) => quotedBreaks (c.rest.length + 1) c

/-- A run of quoted text without blanks. -/
def quotedRun (double : Bool) : Nat → Cursor → Scanned
  | 0, _ => .error .malformed
  | fuel + 1, c =>
    let more (head : List Char) (c : Cursor) : Scanned :=
      (quotedRun double fuel c).map fun (tail, c) => (head ++ tail, c)
    let stops (ch : Char) : Bool := ch == '\'' || ch == '"' || ch == '\\' || isGap ch
    let (run, c) := c.span (!stops ·)
    let ch := c.peek
    if !double && ch == '\'' && c.peekAt 1 == '\'' then more (run ++ ['\'']) (c.skip 2)
    else if (double && ch == '\'') || (!double && (ch == '"' || ch == '\\')) then
      more (run ++ [ch]) c.next
    else if double && ch == '\\' then
      match escape c.next with
      | .error fault => .error fault
      | .ok (escaped, c) => more (run ++ escaped) c
    else .ok (run, c)

/-- Runs of text and blanks up to the closing quote. -/
def quotedBody (double : Bool) : Nat → Cursor → Scanned
  | 0, _ => .error .malformed
  | fuel + 1, c => do
    let (run, c) ← quotedRun double (c.rest.length + 1) c
    if c.peek == (if double then '"' else '\'') then .ok (run, c.next)
    else
      let (blanks, c) ← quotedBlanks c
      let (tail, c) ← quotedBody double fuel c
      .ok (run ++ blanks ++ tail, c)

/-- A quoted scalar, from its opening quote on. -/
def quoted (double : Bool) (c : Cursor) : Scanned :=
  quotedBody double (c.rest.length + 1) c.next

/-! ### Plain scalars -/

/-- A plain scalar ends before this character. Inside flow collections their own
punctuation ends it as well. -/
def endsPlain (flow : Bool) (ch following : Char) : Bool :=
  isGap ch ||
    (ch == ':' && (isGap following || (flow && [',', '[', ']', '\x7b', '\x7d'].contains following))) ||
    (flow && [',', '?', '[', ']', '\x7b', '\x7d'].contains ch)

/-- A run of plain text without blanks. -/
def plainRun (flow : Bool) : List Char → List Char
  | [] => []
  | ch :: rest =>
    if endsPlain flow ch (rest.headD '\x00') then [] else ch :: plainRun flow rest

/-- Line breaks behind a first one, with the blanks between them. Nothing is returned
where a separator of documents follows a break. -/
def plainBreaks : Nat → Cursor → Option (List Char) × Cursor
  | 0, c => (some [], c)
  | fuel + 1, c =>
    let c := c.skipWhile (· == ' ')
    match c.lineBreak with
    | ([], c) => (some [], c)
    | (brk, c) =>
      if c.atSeparator then (none, c)
      else
        let (more, c) := plainBreaks fuel c
        (more.map (brk ++ ·), c)

/-- What stands between two runs of plain text, and whether a line ended there. -/
structure Interval where
  text : List Char
  crossed : Bool

/-- The blanks behind a run of plain text. -/
def plainBlanks (c : Cursor) : Interval × Cursor :=
  let (blanks, c) := c.span (· == ' ')
  match c.lineBreak with
  | ([], c) => (⟨blanks, false⟩, c)
  | (brk, c) =>
    if c.atSeparator then (⟨[], true⟩, c)
    else
      match plainBreaks (c.rest.length + 1) c with
      | (none, c) => (⟨[], true⟩, c)
      | (some more, c) => (⟨joint brk more, true⟩, c)

/-- A plain scalar as it was read. The last field says that a line ended behind its last
run, so that a key may begin there. -/
structure Plain where
  text : List Char
  cursor : Cursor
  crossed : Bool

/-- Runs of plain text. Text on a further line belongs to the scalar only if it is
indented more than the collection around it. -/
def plainBody (flow : Bool) (indent : Int) : Nat → Plain → List Char → Plain
  | 0, done, _ => done
  | fuel + 1, done, blanks =>
    let c := done.cursor
    let run := if c.peek == '#' then [] else plainRun flow c.rest
    if run.isEmpty then done
    else
      let (between, c) := plainBlanks (c.skip run.length)
      let text := done.text ++ blanks ++ run
      if between.text.isEmpty || c.peek == '#' || (!flow && (c.column : Int) < indent) then
        ⟨text, c, between.crossed⟩
      else plainBody flow indent fuel ⟨text, c, between.crossed⟩ between.text

/-- A plain scalar inside a collection of the given indentation. -/
def plain (flow : Bool) (indent : Int) (c : Cursor) : Plain :=
  plainBody flow (indent + 1) (c.rest.length + 1) ⟨[], c, false⟩ []

/-! ### Block scalars -/

/-- What happens to the line breaks at the end of a block. -/
inductive Chomping where
  | strip
  | clip
  | keep
  deriving DecidableEq, Repr

/-- The sign of an indicator. -/
def chomping? (ch : Char) : Option Chomping :=
  if ch == '+' then some .keep else if ch == '-' then some .strip else none

/-- An indentation indicator is a digit from 1 to 9. -/
def increment? (ch : Char) : Except Fault (Option Nat) :=
  if ch == '0' then .error .malformed
  else if ch.isDigit then .ok (some (Number.digitValue ch))
  else .ok none

/-- The indicators behind the sign of a block scalar, in either order. -/
def indicators (c : Cursor) : Except Fault (Chomping × Option Nat × Cursor) := do
  let (chomping, increment, c) ← match chomping? c.peek with
    | some chomping => do
      match ← increment? c.next.peek with
      | some n => .ok (chomping, some n, c.next.next)
      | none => .ok (chomping, none, c.next)
    | none => do
      match ← increment? c.peek with
      | some n =>
        match chomping? c.next.peek with
        | some chomping => .ok (chomping, some n, c.next.next)
        | none => .ok (Chomping.clip, some n, c.next)
      | none => .ok (Chomping.clip, none, c)
  if endsWord c.peek then .ok (chomping, increment, c) else .error .malformed

/-- The rest of a line that may only hold a comment. -/
def lineEnd (c : Cursor) : Except Fault Cursor :=
  let c := (c.skipWhile (· == ' ')).skipComment
  if endsLine c.peek then .ok c.lineBreak.2 else .error .malformed

/-- Blank lines at the beginning of a block and the widest indentation among them and
the first line of text. -/
def leadingBreaks : Nat → Nat → Cursor → List Char × Nat × Cursor
  | 0, widest, c => ([], widest, c)
  | fuel + 1, widest, c =>
    if c.peek == ' ' then
      let c := c.next
      leadingBreaks fuel (max widest c.column) c
    else
      match c.lineBreak with
      | ([], c) => ([], widest, c)
      | (brk, c) =>
        let (more, widest, c) := leadingBreaks fuel widest c
        (brk ++ more, widest, c)

/-- The cursor behind at most the indentation of a block. -/
def skipIndent (indent : Nat) (c : Cursor) : Cursor :=
  c.skip (min (indent - c.column) (c.rest.takeWhile (· == ' ')).length)

/-- Blank lines inside a block, up to the indentation of its next line. -/
def blockBreaks (indent : Nat) : Nat → Cursor → List Char × Cursor
  | 0, c => ([], c)
  | fuel + 1, c =>
    let c := skipIndent indent c
    match c.lineBreak with
    | ([], c) => ([], c)
    | (brk, c) =>
      let (more, c) := blockBreaks indent fuel c
      (brk ++ more, c)

/-- The lines of a block and the breaks that close it: the one behind the last line, and
the blank lines after it. -/
def blockLines (folded : Bool) (indent : Nat) :
    Nat → List Char → Cursor → List Char × List Char × List Char × Cursor
  | 0, breaks, c => ([], [], breaks, c)
  | fuel + 1, breaks, c =>
    if c.column != indent || c.rest.isEmpty then ([], [], breaks, c)
    else
      let textFirst := !(c.peek == ' ' || c.peek == '\t')
      let (line, c) := c.span (!isBreak ·)
      let (brk, c) := c.lineBreak
      let (following, c) := blockBreaks indent (c.rest.length + 1) c
      if c.column == indent && !c.rest.isEmpty then
        let folds := folded && brk == ['\n'] && textFirst && !(c.peek == ' ' || c.peek == '\t')
        let between := if folds then (if following.isEmpty then [' '] else []) else brk
        let (text, last, trailing, c) := blockLines folded indent fuel following c
        (breaks ++ line ++ between ++ text, last, trailing, c)
      else (breaks ++ line, brk, following, c)

/-- A block scalar inside a collection of the given indentation, from its sign on. -/
def block (folded : Bool) (indent : Int) (c : Cursor) : Scanned := do
  let (chomping, increment, c) ← indicators c.next
  let c ← lineEnd c
  let least := (max (indent + 1) 1).toNat
  let (width, breaks, c) := match increment with
    | some n =>
      let width := least + n - 1
      let (breaks, c) := blockBreaks width (c.rest.length + 1) c
      (width, breaks, c)
    | none =>
      let (breaks, widest, c) := leadingBreaks (c.rest.length + 1) 0 c
      (max least widest, breaks, c)
  let (text, last, trailing, c) := blockLines folded width (c.rest.length + 1) breaks c
  let ending := match chomping with
    | .strip => []
    | .clip => last
    | .keep => last ++ trailing
  .ok (text ++ ending, c)

end FlowDiagram.Yaml.Scalar
