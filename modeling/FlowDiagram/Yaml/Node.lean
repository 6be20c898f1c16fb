import FlowDiagram.Yaml.Kind
import FlowDiagram.Yaml.Token
/-!
# Nodes of a document

A node is a scalar, a sequence or a mapping with its kind. The nodes of a document are
kept in a table, and collections refer to their parts by place; an alias refers to the
place of the node that its anchor names. A part always has a lower place than the
collection it is in. Every text holds at most one document.

Nodes are read from the tokens of a text. The reader calls itself at most twice per
token, which bounds its depth.
-/

namespace FlowDiagram.Yaml

/-- What a node is made of. -/
inductive Content where
  | scalar (text : String)
  | seq (items : List Nat)
  | map (entries : List (Nat × Nat))
  deriving DecidableEq, Repr

structure Node where
  kind : Kind
  content : Content
  deriving DecidableEq, Repr

/-- The nodes of a document by their places. -/
abbrev Nodes := Array Node

/-- The node at the root of a document among all its nodes. -/
structure Tree where
  nodes : Nodes
  root : Nat
  deriving DecidableEq, Repr

namespace Node

/-- A node that is not written. -/
def empty : Node := ⟨.null, .scalar ""⟩

/-- What has been read of a document: its nodes, and for each anchor the place of its node,
unless that node is still being read. -/
structure Sheet where
  nodes : Nodes := #[]
  anchors : List (String × Option Nat) := []

namespace Sheet

/-- Write a node on the next place. -/
def add (s : Sheet) (n : Node) : Nat × Sheet := (s.nodes.size, { s with nodes := s.nodes.push n })

/-- Begin a node with an anchor, which no other node may have. -/
def announce (anchor : Option String) (s : Sheet) : Except Fault Sheet :=
  match anchor with
  | none => .ok s
  | some a =>
    if (s.anchors.lookup a).isSome then .error .malformed
    else .ok { s with anchors := (a, none) :: s.anchors }

/-- End a node with an anchor. -/
def finish (anchor : Option String) (n : Node) (s : Sheet) : Nat × Sheet :=
  let (place, s) := s.add n
  match anchor with
  | none => (place, s)
  | some a => (place, { s with anchors := (a, some place) :: s.anchors })

/-- The place of the node with an anchor. A node that is still being read would be part of
itself. -/
def named (s : Sheet) (anchor : String) : Except Fault Nat :=
  match s.anchors.lookup anchor with
  | some (some place) => .ok place
  | some none => .error (.foreign .cycle)
  | none => .error .malformed

end Sheet

/-- The fault of tokens that do not continue the document. -/
def stop {α : Type} : List Token → Except Fault α
  | .broken fault :: _ => .error fault
  | _ => .error .malformed

/-- Where a node stands. -/
inductive Place where
  | flow
  | block
  /-- A sequence may begin here without indentation. -/
  | entry
  deriving DecidableEq

/-- The tag in front of a node. -/
inductive Given where
  | nothing
  /-- A lone exclamation mark: the form of the node decides. -/
  | byForm
  | tag (full : String)

/-- The tag that a handle and a suffix stand for. -/
def expanded (handles : List (String × String)) (handle : Option String) (suffix : String) :
    Except Fault Given :=
  let given (full : String) : Given := if full = "!" then .byForm else .tag full
  match handle with
  | none => .ok (given suffix)
  | some h =>
    match handles.lookup h with
    | none => .error .malformed
    | some expansion => .ok (given (expansion ++ suffix))

/-- An anchor and a tag, in either order. -/
def properties (handles : List (String × String)) :
    List Token → Except Fault (Option String × Given × List Token)
  | .anchor a :: .tag h s :: rest => (expanded handles h s).map (some a, ·, rest)
  | .tag h s :: .anchor a :: rest => (expanded handles h s).map (some a, ·, rest)
  | .anchor _ :: .broken fault :: _ | .tag _ _ :: .broken fault :: _ => .error fault
  | .anchor a :: rest => .ok (some a, .nothing, rest)
  | .tag h s :: rest => (expanded handles h s).map (none, ·, rest)
  | rest => .ok (none, .nothing, rest)

/-- The kind of a scalar. -/
def scalarKind (given : Given) (plain : Bool) (text : String) : Kind :=
  match given with
  | .tag full => .ofTag full
  | .byForm => .ofForm text
  | .nothing => if plain then .ofForm text else .text

/-- The kind of a collection. -/
def collectionKind (given : Given) (ordinary : Kind) : Kind :=
  match given with
  | .tag full => .ofTag full
  | .byForm | .nothing => ordinary

/-- Nothing is written where one of these tokens follows a key or a colon of a block. -/
def endsBlockPart : List Token → Bool
  | .key :: _ | .value :: _ | .closeBlock :: _ => true
  | _ => false

section Reading

variable (handles : List (String × String))

mutual

/-- A node at the beginning of the tokens. -/
def read : Nat → Place → List Token → Sheet → Except Fault (Nat × List Token × Sheet)
  | 0, _, ts, _ => stop ts
  | fuel + 1, place, ts, sheet =>
    match ts with
    | .alias a :: rest => do
      let place ← sheet.named a
      .ok (place, rest, sheet)
    | _ => do
      let (anchor, given, body) ← properties handles ts
      match body with
      | .scalar text plain :: rest =>
        let sheet ← sheet.announce anchor
        let (place, sheet) := sheet.finish anchor ⟨scalarKind given plain text, .scalar text⟩
        .ok (place, rest, sheet)
      | .openFlowSeq :: rest =>
        let sheet ← sheet.announce anchor
        let (items, rest, sheet) ← flowItems fuel true rest sheet
        let (place, sheet) := sheet.finish anchor ⟨collectionKind given .seq, .seq items⟩
        .ok (place, rest, sheet)
      | .openFlowMap :: rest =>
        let sheet ← sheet.announce anchor
        let (entries, rest, sheet) ← flowEntries fuel true rest sheet
        let (place, sheet) := sheet.finish anchor ⟨collectionKind given .map, .map entries⟩
        .ok (place, rest, sheet)
      | .openBlockSeq :: rest =>
        if place = .flow then bare anchor given body sheet
        else
          let sheet ← sheet.announce anchor
          let (items, rest, sheet) ← blockItems fuel rest sheet
          match rest with
          | .closeBlock :: rest =>
            let (place, sheet) := sheet.finish anchor ⟨collectionKind given .seq, .seq items⟩
            .ok (place, rest, sheet)
          | _ => stop rest
      | .openBlockMap :: rest =>
        if place = .flow then bare anchor given body sheet
        else
          let sheet ← sheet.announce anchor
          let (entries, rest, sheet) ← blockEntries fuel rest sheet
          let (place, sheet) := sheet.finish anchor ⟨collectionKind given .map, .map entries⟩
          .ok (place, rest, sheet)
      | .entry :: _ =>
        if place = .entry then
          let sheet ← sheet.announce anchor
          let (items, rest, sheet) ← blockItems fuel body sheet
          let (place, sheet) := sheet.finish anchor ⟨collectionKind given .seq, .seq items⟩
          .ok (place, rest, sheet)
        else bare anchor given body sheet
      | _ => bare anchor given body sheet
termination_by structural fuel => fuel

/-- A node of which only an anchor or a tag is written. -/
def bare (anchor : Option String) (given : Given) (rest : List Token) (sheet : Sheet) :
    Except Fault (Nat × List Token × Sheet) :=
  match anchor, given, rest with
  | none, .nothing, _ | _, _, .broken _ :: _ => stop rest
  | _, _, _ => do
    let sheet ← sheet.announce anchor
    let (place, sheet) := sheet.finish anchor ⟨scalarKind given true "", .scalar ""⟩
    .ok (place, rest, sheet)

/-- The entries of a block sequence. -/
def blockItems : Nat → List Token → Sheet → Except Fault (List Nat × List Token × Sheet)
  | 0, ts, _ => stop ts
  | fuel + 1, ts, sheet =>
    match ts with
    | .entry :: rest => do
      let (item, rest, sheet) ←
        match rest with
        | .entry :: _ | .key :: _ | .value :: _ | .closeBlock :: _ => .ok (unwritten rest sheet)
        | _ => read fuel .block rest sheet
      let (items, rest, sheet) ← blockItems fuel rest sheet
      .ok (item :: items, rest, sheet)
    | _ => .ok ([], ts, sheet)
termination_by structural fuel => fuel

/-- The entries of a block mapping, with the end of the block. -/
def blockEntries : Nat → List Token → Sheet →
    Except Fault (List (Nat × Nat) × List Token × Sheet)
  | 0, ts, _ => stop ts
  | fuel + 1, ts, sheet =>
    match ts with
    | .key :: rest => do
      let (key, rest, sheet) ←
        if endsBlockPart rest then .ok (unwritten rest sheet) else read fuel .entry rest sheet
      let (value, rest, sheet) ← blockValue fuel rest sheet
      let (entries, rest, sheet) ← blockEntries fuel rest sheet
      .ok ((key, value) :: entries, rest, sheet)
    | .closeBlock :: rest => .ok ([], rest, sheet)
    | _ => stop ts
termination_by structural fuel => fuel

/-- The value behind a key of a block mapping. -/
def blockValue : Nat → List Token → Sheet → Except Fault (Nat × List Token × Sheet)
  | 0, ts, _ => stop ts
  | fuel + 1, ts, sheet =>
    match ts with
    | .value :: rest =>
      if endsBlockPart rest then .ok (unwritten rest sheet) else read fuel .entry rest sheet
    | _ => .ok (unwritten ts sheet)
termination_by structural fuel => fuel

/-- The items of a flow sequence, with its end. An item may be a single entry of a
mapping. -/
def flowItems : Nat → Bool → List Token → Sheet →
    Except Fault (List Nat × List Token × Sheet)
  | 0, _, ts, _ => stop ts
  | fuel + 1, first, ts, sheet =>
    match ts with
    | .closeFlowSeq :: rest => .ok ([], rest, sheet)
    | _ => do
      let ts ← if first then .ok ts else afterComma ts
      match ts with
      | .closeFlowSeq :: rest => .ok ([], rest, sheet)
      | .key :: rest =>
        let (key, rest, sheet) ←
          match rest with
          | .value :: _ | .comma :: _ | .closeFlowSeq :: _ => .ok (unwritten rest sheet)
          | _ => read fuel .flow rest sheet
        let (value, rest, sheet) ← flowValue fuel rest sheet
        let (entry, sheet) := sheet.add ⟨.map, .map [(key, value)]⟩
        let (items, rest, sheet) ← flowItems fuel false rest sheet
        .ok (entry :: items, rest, sheet)
      | _ =>
        let (item, rest, sheet) ← read fuel .flow ts sheet
        let (items, rest, sheet) ← flowItems fuel false rest sheet
        .ok (item :: items, rest, sheet)
termination_by structural fuel => fuel

/-- The entries of a flow mapping, with its end. A key may stand without a value. -/
def flowEntries : Nat → Bool → List Token → Sheet →
    Except Fault (List (Nat × Nat) × List Token × Sheet)
  | 0, _, ts, _ => stop ts
  | fuel + 1, first, ts, sheet =>
    match ts with
    | .closeFlowMap :: rest => .ok ([], rest, sheet)
    | _ => do
      let ts ← if first then .ok ts else afterComma ts
      match ts with
      | .closeFlowMap :: rest => .ok ([], rest, sheet)
      | .key :: rest =>
        let (key, rest, sheet) ←
          match rest with
          | .value :: _ | .comma :: _ | .closeFlowMap :: _ => .ok (unwritten rest sheet)
          | _ => read fuel .flow rest sheet
        let (value, rest, sheet) ← flowValue fuel rest sheet
        let (entries, rest, sheet) ← flowEntries fuel false rest sheet
        .ok ((key, value) :: entries, rest, sheet)
      | _ =>
        let (key, rest, sheet) ← read fuel .flow ts sheet
        let (value, sheet) := sheet.add empty
        let (entries, rest, sheet) ← flowEntries fuel false rest sheet
        .ok ((key, value) :: entries, rest, sheet)
termination_by structural fuel => fuel

/-- The value behind a key of a flow collection. -/
def flowValue : Nat → List Token → Sheet → Except Fault (Nat × List Token × Sheet)
  | 0, ts, _ => stop ts
  | fuel + 1, ts, sheet =>
    match ts with
    | .value :: rest =>
      match rest with
      | .comma :: _ | .closeFlowSeq :: _ | .closeFlowMap :: _ => .ok (unwritten rest sheet)
      | _ => read fuel .flow rest sheet
    | _ => .ok (unwritten ts sheet)
termination_by structural fuel => fuel

/-- A part that is not written in front of some tokens. -/
def unwritten (rest : List Token) (sheet : Sheet) : Nat × List Token × Sheet :=
  let (place, sheet) := sheet.add empty
  (place, rest, sheet)

/-- The tokens behind the comma between two parts of a flow collection. -/
def afterComma : List Token → Except Fault (List Token)
  | .comma :: rest => .ok rest
  | ts => stop ts

end

end Reading

/-- The directives in front of a document. -/
structure Preamble where
  version : Option (Nat × Nat) := none
  handles : List (String × String) := []

/-- Read directives. The version must be 1 and is given once; a handle is defined once. -/
def preamble : List Token → Preamble → Except Fault (Preamble × List Token)
  | .directive d :: rest, p =>
    match d with
    | .version major minor =>
      if p.version.isSome ∨ major ≠ 1 then .error .malformed
      else preamble rest { p with version := some (major, minor) }
    | .handle name expansion =>
      if (p.handles.lookup name).isSome then .error .malformed
      else preamble rest { p with handles := (name, expansion) :: p.handles }
    | .other => preamble rest p
  | ts, p => .ok (p, ts)

/-- The handles that every document has. -/
def defaultHandles : List (String × String) := [("!", "!"), ("!!", "tag:yaml.org,2002:")]

/-- A document may end with lines of points; nothing may follow. What stands behind the
directives of a second document is not looked at. -/
def ending : List Token → Except Fault Unit
  | .documentEnd :: rest => ending rest
  | [.textEnd] => .ok ()
  | ts => do
    let (_, rest) ← preamble ts {}
    stop rest

/-- The nodes of a document behind its directives and its opening line. -/
def document (handles : List (String × String)) (ts : List Token) : Except Fault Tree := do
  let fuel := 2 * ts.length + 2
  let (root, rest, sheet) ← read handles fuel .block ts {}
  ending rest
  .ok ⟨sheet.nodes, root⟩

end Node

/-- The nodes of a document, or nothing if there is no document. -/
def Tree.ofTokens (ts : List Token) : Except Fault (Option Tree) :=
  match ts with
  | [.textEnd] => .ok none
  | .directive _ :: _ | .documentStart :: _ => do
    let (p, rest) ← Node.preamble ts {}
    match rest with
    | .documentStart :: body =>
      match body with
      | .directive _ :: _ | .documentStart :: _ | .documentEnd :: _ | .textEnd :: _ =>
        (Node.ending body).map fun _ => some ⟨#[Node.empty], 0⟩
      | _ => (Node.document (p.handles ++ Node.defaultHandles) body).map some
    | _ => Node.stop rest
  | _ => (Node.document Node.defaultHandles ts).map some

end FlowDiagram.Yaml
