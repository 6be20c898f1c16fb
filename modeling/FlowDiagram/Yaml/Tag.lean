import FlowDiagram.Yaml.Cursor
import FlowDiagram.Yaml.Token
import FlowDiagram.Number.Reading
import FlowDiagram.Text.Utf8
/-!
# Tags, names and directives

A tag names the kind of a node: in full between angle brackets, or by a handle and a
suffix. Percent escapes in it must encode well-formed text. Directives introduce the
version of the notation and further handles.
-/

namespace FlowDiagram.Yaml

/-- A character of a tag or of a handle's expansion. -/
def isTagChar (c : Char) : Bool :=
  c.isAlphanum || "-;/?:@&=+$,_.!~*'()[]%".toList.contains c

/-- The bytes of a run of percent escapes. -/
def percentBytes : Nat → Cursor → Except Fault (List UInt8 × Cursor)
  | 0, c => .ok ([], c)
  | fuel + 1, c =>
    match c.rest with
    | '%' :: a :: b :: _ =>
      match Number.ofHex? [a, b] with
      | none => .error .malformed
      | some n => (percentBytes fuel (c.skip 3)).map fun (bs, c) => (UInt8.ofNat n :: bs, c)
    | '%' :: _ => .error .malformed
    | _ => .ok ([], c)

/-- A run of tag characters with the escapes replaced. -/
def tagChars : Nat → Cursor → Except Fault (List Char × Cursor)
  | 0, c => .ok ([], c)
  | fuel + 1, c =>
    if c.peek == '%' then do
      let (bytes, c) ← percentBytes (c.rest.length + 1) c
      match Text.decode bytes with
      | .error _ => .error .malformed
      | .ok text =>
        let (more, c) ← tagChars fuel c
        .ok (text ++ more, c)
    else if isTagChar c.peek then do
      let ch := c.peek
      let (more, c) ← tagChars fuel c.next
      .ok (ch :: more, c)
    else .ok ([], c)

/-- At least one tag character. -/
def tagText (c : Cursor) : Except Fault (String × Cursor) := do
  if !isTagChar c.peek then .error .malformed
  let (text, c) ← tagChars (c.rest.length + 1) c
  .ok (String.ofList text, c)

/-- A handle: an exclamation mark, or a name between two of them. -/
def handle (c : Cursor) : Except Fault (String × Cursor) :=
  if c.peek != '!' then .error .malformed
  else if c.next.peek == ' ' then .ok ("!", c.next)
  else
    let (name, c) := c.next.span isWordChar
    if c.peek == '!' then .ok (String.ofList ('!' :: name ++ ['!']), c.next) else .error .malformed

/-- A tag, from its exclamation mark on. -/
def tag (c : Cursor) : Except Fault (Token × Cursor) := do
  let ch := c.next.peek
  let (token, c) ←
    if ch == '<' then do
      let (suffix, c) ← tagText (c.skip 2)
      if c.peek == '>' then .ok (Token.tag none suffix, c.next) else .error .malformed
    else if isGap ch then .ok (Token.tag none "!", c.next)
    else do
      let (name, c) ←
        if (c.next.rest.takeWhile (!endsWord ·)).contains '!' then handle c else .ok ("!", c.next)
      let (suffix, c) ← tagText c
      .ok (Token.tag (some name) suffix, c)
  if endsWord c.peek then .ok (token, c) else .error .malformed

/-- The name behind the sign of an alias or an anchor. -/
def name (c : Cursor) : Except Fault (String × Cursor) :=
  let (run, c) := c.next.span isWordChar
  let ch := c.peek
  if run.isEmpty then .error .malformed
  else if isGap ch || ['?', ':', ',', ']', '\x7d', '%', '@', '\x60'].contains ch then
    .ok (String.ofList run, c)
  else .error .malformed

/-- A number of a version. -/
def versionNumber (c : Cursor) : Except Fault (Nat × Cursor) :=
  let (ds, c) := c.span Char.isDigit
  if ds.isEmpty then .error .malformed
  else if Number.mostDigits < ds.length then .error (.longInteger ds.length)
  else .ok (Number.ofDigits ds, c)

/-- The parameters of a directive with the given name. -/
def parameters (name : List Char) (c : Cursor) : Except Fault (Directive × Cursor) :=
  let blank (ch : Char) : Bool := ch == ' '
  if name = "YAML".toList then do
    let (major, c) ← versionNumber (c.skipWhile blank)
    if c.peek != '.' then .error .malformed
    let (minor, c) ← versionNumber c.next
    if endsWord c.peek then .ok (.version major minor, c) else .error .malformed
  else if name = "TAG".toList then do
    let (name, c) ← handle (c.skipWhile blank)
    if c.peek != ' ' then .error .malformed
    let (expansion, c) ← tagText (c.skipWhile blank)
    if endsWord c.peek then .ok (.handle name expansion, c) else .error .malformed
  else .ok (.other, c.skipWhile (!isBreak ·))

/-- A directive with the rest of its line. -/
def directive (c : Cursor) : Except Fault (Directive × Cursor) := do
  let (name, c) := c.next.span isWordChar
  if name.isEmpty || !endsWord c.peek then .error .malformed
  let (d, c) ← parameters name c
  let c := (c.skipWhile (· == ' ')).skipComment
  if endsLine c.peek then .ok (d, c.lineBreak.2) else .error .malformed

end FlowDiagram.Yaml
