import FlowDiagram.Proofs.Outcomes
import Mathlib.Data.List.Forall2
/-!
# Reading formulas from infix text

A formula is written with the words `and`, `or` and `not` and with parentheses; `not` binds
tighter than `and`, and `and` tighter than `or`. A text is read from left to right: the words of
each level are collected, and a closing parenthesis makes a unit of what is collected since its
opening one. Each level is cut at every `or` and then at every `and` (`choices?`).

What a text reads as does not depend on what is around it (`read?_eq_some_iff`), so texts can be
put beside one another. `Reads.or` and `Reads.and` say what the whole reads as: with `or` the
choices of both, while `and` joins the last choice of the one with the first choice of the other.
A text that reads as a single unit keeps it whole in both cases.
-/

namespace FlowDiagram.Transition

/-! ## Formulas -/

/-- How two operands are compared. -/
inductive Relation where
  | equal
  | unequal
  | greater
  | less
  | atLeast
  | atMost
  | within
  | containing
  deriving DecidableEq, Repr

namespace Relation

def all : List Relation :=
  [equal, unequal, greater, less, atLeast, atMost, within, containing]

/-- How a relation is written between its operands. -/
def sign : Relation → String
  | equal => "=="
  | unequal => "!="
  | greater => ">"
  | less => "<"
  | atLeast => ">="
  | atMost => "<="
  | within => "in"
  | containing => "contains"

/-- The relation that a sign stands for. -/
def ofSign? (text : String) : Option Relation := all.find? fun r => r.sign == text

theorem ofSign?_sign (r : Relation) : ofSign? r.sign = some r := by
  cases r <;> rfl

end Relation

/-- A condition without parts. -/
inductive Atom where
  | relation (r : Relation) (left right : String)
  | existence (operand : String)
  deriving DecidableEq, Repr

/-- A unit of a text. -/
inductive Formula where
  | atom (a : Atom)
  | denial (f : Formula)
  /-- Choices in parentheses, each of several units that hold together. -/
  | group (choices : List (List Formula))

/-- What a text says on its outermost level: choices, each of several units that hold
together. -/
abbrev Choices := List (List Formula)

/-- A meaning is a boolean function of atoms. -/
abbrev Meaning := (Atom → Bool) → Bool

mutual

def Formula.holds : Formula → Meaning
  | .atom a, truth => truth a
  | .denial f, truth => !f.holds truth
  | .group choices, truth => someHold choices truth
termination_by structural f => f

/-- Some choice holds. -/
def someHold : Choices → Meaning
  | [], _ => false
  | units :: rest, truth => allHold units truth || someHold rest truth
termination_by structural choices => choices

/-- All units hold. -/
def allHold : List Formula → Meaning
  | [], _ => true
  | f :: rest, truth => f.holds truth && allHold rest truth
termination_by structural units => units

end

section

variable {truth : Atom → Bool}

theorem allHold_append (units more : List Formula) :
    allHold (units ++ more) truth = (allHold units truth && allHold more truth) := by
  induction units with
  | nil => simp [allHold]
  | cons f rest ih => simp [allHold, ih, Bool.and_assoc]

@[simp] theorem someHold_singleton (units : List Formula) :
    someHold [units] truth = allHold units truth := by
  simp [someHold]

@[simp] theorem allHold_singleton (f : Formula) : allHold [f] truth = f.holds truth := by
  simp [allHold]

end

/-! ## Tokens -/

inductive Token where
  | opening
  | closing
  | word (text : String)
  deriving DecidableEq, Repr

/-- What a character that is no part of a word stands for. -/
def mark? (c : Char) : Option (List Token) :=
  if c = ' ' then some []
  else if c = '(' then some [.opening]
  else if c = ')' then some [.closing]
  else none

/-- The word of some characters, if there are any. -/
def wordOf : List Char → List Token
  | [] => []
  | cs => [.word (String.ofList cs)]

/-- The tokens of a text behind the first characters of a word. -/
def tokensFrom (begun : List Char) : List Char → List Token
  | [] => wordOf begun
  | c :: rest =>
    match mark? c with
    | some marks => wordOf begun ++ marks ++ tokensFrom [] rest
    | none => tokensFrom (begun ++ [c]) rest

def tokens (text : String) : List Token := tokensFrom [] text.toList

/-- A text that is a single word. -/
def IsWord (text : String) : Prop := text ≠ "" ∧ ∀ c ∈ text.toList, mark? c = none

/-- A word that is none of those with a meaning of their own. -/
structure IsName (text : String) : Prop where
  word : IsWord text
  ne_and : text ≠ "and"
  ne_or : text ≠ "or"
  ne_not : text ≠ "not"

-- The characters of the text are tried, not all characters that there are.
instance (text : String) : Decidable (IsWord text) :=
  @instDecidableAnd _ _ _ (List.decidableBAll _ _)

section

variable {c : Char} {marks : List Token} {text left right : String}

/-- Nothing is joined across the end of a word. -/
theorem tokensFrom_append (ends : mark? c = some marks) (begun cs rest : List Char) :
    tokensFrom begun (cs ++ c :: rest) = tokensFrom begun cs ++ marks ++ tokensFrom [] rest := by
  induction cs generalizing begun with
  | nil => simp [tokensFrom, ends]
  | cons d cs ih =>
      simp only [List.cons_append, tokensFrom]
      cases mark? d with
      | some marks' => simp [ih]
      | none => exact ih _

@[simp] theorem tokens_spaced (left right : String) :
    tokens (left ++ " " ++ right) = tokens left ++ tokens right := by
  have ends : mark? ' ' = some [] := rfl
  simp [tokens, tokensFrom_append ends]

@[simp] theorem tokens_opened (left right : String) :
    tokens (left ++ "(" ++ right) = tokens left ++ .opening :: tokens right := by
  have ends : mark? '(' = some [.opening] := rfl
  simp [tokens, tokensFrom_append ends]

@[simp] theorem tokens_closed (left : String) :
    tokens (left ++ ")") = tokens left ++ [.closing] := by
  have ends : mark? ')' = some [.closing] := rfl
  have none_left : tokensFrom [] [] = [] := rfl
  simp [tokens, tokensFrom_append ends, none_left]

theorem tokens_word (word : IsWord text) : tokens text = [.word text] := by
  have collected (begun cs : List Char) (plain : ∀ c ∈ cs, mark? c = none) :
      tokensFrom begun cs = wordOf (begun ++ cs) := by
    induction cs generalizing begun with
    | nil => simp [tokensFrom]
    | cons c rest ih =>
        obtain ⟨own, others⟩ := List.forall_mem_cons.mp plain
        simp [tokensFrom, own, ih (begun ++ [c]) others]
  rw [tokens, collected [] text.toList word.2, List.nil_append]
  cases chars : text.toList with
  | nil => exact absurd (String.toList_eq_nil_iff.mp chars) word.1
  | cons c rest => rw [wordOf, ← chars, String.ofList_toList]; simp

theorem isName_sign (r : Relation) : IsName r.sign := by
  cases r <;> exact ⟨by decide, by decide, by decide, by decide⟩

theorem tokens_joined (word : IsWord text) (left right : String) :
    tokens (left ++ (" " ++ text ++ " ") ++ right) = tokens left ++ .word text :: tokens right := by
  have apart : left ++ (" " ++ text ++ " ") ++ right = left ++ " " ++ (text ++ " " ++ right) := by
    simp [String.append_assoc]
  rw [apart, tokens_spaced, tokens_spaced, tokens_word word]
  rfl

end

/-! ## One level -/

/-- What is collected on a level: words, and groups that were closed. -/
inductive Piece where
  | word (text : String)
  | unit (f : Formula)

def Piece.isWord (text : String) : Piece → Bool
  | .word t => t == text
  | .unit _ => false

/-- The unit that some pieces form. -/
def unit? : List Piece → Option Formula
  | [.unit f] => some f
  | .word "not" :: rest => (unit? rest).map .denial
  | [.word "exists", .word operand] => some (.atom (.existence operand))
  | [.word left, .word sign, .word right] =>
    (Relation.ofSign? sign).map fun r => .atom (.relation r left right)
  | _ => none

/-- The units between the words `and`. -/
def units? (pieces : List Piece) : Option (List Formula) :=
  (pieces.splitOnP (Piece.isWord "and")).mapM unit?

/-- The choices between the words `or`. -/
def choices? (pieces : List Piece) : Option Choices :=
  (pieces.splitOnP (Piece.isWord "or")).mapM units?

/-- Two lists of lists, put together where the one ends and the other begins. -/
def beside {α : Type} : List (List α) → List (List α) → List (List α)
  | [], more => more
  | [last], first :: more => (last ++ first) :: more
  | first :: rest, more => first :: beside rest more

section

variable {α : Type} {more : List (List α)}

@[simp] theorem beside_singleton (last first : List α) (more : List (List α)) :
    beside [last] (first :: more) = (last ++ first) :: more := rfl

@[simp] theorem beside_cons_cons (first second : List α) (rest more : List (List α)) :
    beside (first :: second :: rest) more = first :: beside (second :: rest) more := by
  cases more <;> rfl

theorem splitOnP_append (cuts : α → Bool) (xs ys : List α) :
    (xs ++ ys).splitOnP cuts = beside (xs.splitOnP cuts) (ys.splitOnP cuts) := by
  induction xs with
  | nil =>
      obtain ⟨first, rest, parts⟩ := List.exists_cons_of_ne_nil (List.splitOnP_ne_nil cuts ys)
      rw [List.nil_append, List.splitOnP_nil, parts]
      rfl
  | cons x xs ih =>
      obtain ⟨first, rest, parts⟩ := List.exists_cons_of_ne_nil (List.splitOnP_ne_nil cuts xs)
      obtain ⟨first', rest', parts'⟩ := List.exists_cons_of_ne_nil (List.splitOnP_ne_nil cuts ys)
      rw [List.cons_append, List.splitOnP_cons_eq_if_modifyHead,
        List.splitOnP_cons_eq_if_modifyHead, ih, parts, parts']
      split
      · rw [beside_cons_cons]
      · cases rest <;> simp

end

section

variable {pieces more : List Piece} {units first : List Formula} {choices others : Choices}

theorem units?_and (left : units? pieces = some units) (right : units? more = some first) :
    units? (pieces ++ .word "and" :: more) = some (units ++ first) := by
  rw [units?] at left right ⊢
  rw [List.splitOnP_append_cons _ _ rfl, List.mapM_append, left, right]
  rfl

/-- With `or` between them, two levels keep their choices. -/
theorem choices?_or (left : choices? pieces = some choices) (right : choices? more = some others) :
    choices? (pieces ++ .word "or" :: more) = some (choices ++ others) := by
  rw [choices?] at left right ⊢
  rw [List.splitOnP_append_cons _ _ rfl, List.mapM_append, left, right]
  rfl

/-- Parts that are read one by one are read so as well where `and` joins two of them. -/
theorem mapM_units?_beside {parts later : List (List Piece)} {last : List Piece}
    (filled : parts ≠ []) (left : parts.mapM units? = some choices)
    (own : units? last = some first) (right : later.mapM units? = some others) :
    (beside parts ((.word "and" :: last) :: later)).mapM units? =
      some (beside choices (first :: others)) := by
  induction parts generalizing choices with
  | nil => exact absurd rfl filled
  | cons part parts ih =>
      rw [List.mapM_cons] at left
      obtain ⟨units, here, left⟩ := Option.bind_eq_some_iff.mp left
      obtain ⟨rest, behind, left⟩ := Option.bind_eq_some_iff.mp left
      cases left
      cases parts with
      | nil =>
          cases behind
          rw [beside_singleton, List.mapM_cons, units?_and here own, right]
          rfl
      | cons second parts =>
          have joined := ih (List.cons_ne_nil _ _) behind
          rw [List.mapM_cons] at behind
          obtain ⟨_, -, behind⟩ := Option.bind_eq_some_iff.mp behind
          obtain ⟨_, -, behind⟩ := Option.bind_eq_some_iff.mp behind
          cases behind
          rw [beside_cons_cons, List.mapM_cons, here, joined]
          rfl

/-- With `and` between them, two levels share a choice. -/
theorem choices?_and (left : choices? pieces = some choices) (right : choices? more = some others) :
    choices? (pieces ++ .word "and" :: more) = some (beside choices others) := by
  rw [choices?] at left right ⊢
  have kept : Piece.isWord "or" (.word "and") = false := rfl
  obtain ⟨last, later, parts⟩ := List.exists_cons_of_ne_nil
    (List.splitOnP_ne_nil (Piece.isWord "or") more)
  rw [splitOnP_append, List.splitOnP_cons_eq_if_modifyHead, kept, parts]
  rw [parts, List.mapM_cons] at right
  obtain ⟨first, own, right⟩ := Option.bind_eq_some_iff.mp right
  obtain ⟨rest, behind, right⟩ := Option.bind_eq_some_iff.mp right
  cases right
  exact mapM_units?_beside (List.splitOnP_ne_nil _ _) left own behind

end

/-! ## Texts -/

/-- The pieces of the levels that are open, those of the innermost one first. -/
abbrev Levels := List (List Piece)

/-- Take in one token. -/
def take? : Levels → Token → Option Levels
  | level :: around, .word text => some ((level ++ [.word text]) :: around)
  | level :: around, .opening => some ([] :: level :: around)
  | level :: outer :: around, .closing =>
    (choices? level).map fun choices => (outer ++ [.unit (.group choices)]) :: around
  | _, _ => none

/-- What a text says, if it is a formula. -/
def read? (text : String) : Option Choices :=
  match (tokens text).foldlM take? [[]] with
  | some [level] => choices? level
  | _ => none

/-- The tokens add some pieces to the level on which they stand, whatever is around them. -/
def Adds (ts : List Token) (pieces : List Piece) : Prop :=
  ∀ level around, ts.foldlM take? (level :: around) = some ((level ++ pieces) :: around)

/-- What a text says, wherever it stands. -/
def Reads (text : String) (choices : Choices) : Prop :=
  ∃ pieces, Adds (tokens text) pieces ∧ choices? pieces = some choices

/-- The outermost of some levels stands behind pieces of its own, inside other levels. -/
def behind (front : List Piece) (outside : Levels) : Levels → Levels
  | [] => []
  | [level] => (front ++ level) :: outside
  | level :: outer :: around => level :: behind front outside (outer :: around)

section

variable {ts us : List Token} {pieces more : List Piece} {choices others : Choices}
variable {text left right : String} {levels levels' : Levels}

/-- What is around the levels makes no difference to a token. -/
theorem take?_behind (front : List Piece) (outside : Levels) {t : Token}
    (taken : take? levels t = some levels') :
    take? (behind front outside levels) t = some (behind front outside levels') := by
  match levels, t with
  | [level], .word text =>
      cases taken
      simp [behind, take?]
  | level :: outer :: around, .word text =>
      cases taken
      rfl
  | [level], .opening =>
      cases taken
      rfl
  | level :: outer :: around, .opening =>
      cases taken
      rfl
  | [level, outer], .closing =>
      obtain ⟨choices, formed, rfl⟩ := Option.map_eq_some_iff.mp taken
      simp [behind, take?, formed]
  | level :: outer :: second :: around, .closing =>
      obtain ⟨choices, formed, rfl⟩ := Option.map_eq_some_iff.mp taken
      simp [behind, take?, formed]

theorem run_behind (front : List Piece) (outside : Levels)
    (run : ts.foldlM take? levels = some levels') :
    ts.foldlM take? (behind front outside levels) = some (behind front outside levels') := by
  induction ts generalizing levels with
  | nil =>
      cases run
      rfl
  | cons t rest ih =>
      obtain ⟨next, taken, run⟩ := Option.bind_eq_some_iff.mp run
      rw [List.foldlM_cons, take?_behind front outside taken]
      exact ih run

namespace Adds

/-- Tokens that fill a level of their own add as much to any other. -/
theorem of_run (run : ts.foldlM take? [[]] = some [pieces]) : Adds ts pieces := by
  intro level around
  simpa [behind] using run_behind level around run

theorem append (first : Adds ts pieces) (second : Adds us more) :
    Adds (ts ++ us) (pieces ++ more) := by
  intro level around
  rw [List.foldlM_append, first level around, ← List.append_assoc]
  exact second _ _

theorem word (text : String) : Adds [.word text] [.word text] := fun _ _ => rfl

theorem group (inner : Adds ts pieces) (formed : choices? pieces = some choices) :
    Adds (.opening :: (ts ++ [.closing])) [.unit (.group choices)] := by
  intro level around
  have inside := inner [] (level :: around)
  have opened : take? (level :: around) .opening = some ([] :: level :: around) := rfl
  have closed : take? (pieces :: level :: around) .closing =
      some ((level ++ [.unit (.group choices)]) :: around) := by
    rw [take?, formed]
    rfl
  simp [opened, inside, closed]

end Adds

/-- A text says by itself what it says between other texts. -/
theorem read?_eq_some_iff : read? text = some choices ↔ Reads text choices := by
  constructor
  · intro read
    rw [read?] at read
    split at read
    · next level run => exact ⟨level, .of_run run, read⟩
    · contradiction
  · rintro ⟨pieces, adds, formed⟩
    rw [read?, adds [] []]
    exact formed

namespace Reads

theorem or (first : Reads left choices) (second : Reads right others) :
    Reads (left ++ " or " ++ right) (choices ++ others) := by
  obtain ⟨pieces, adds, formed⟩ := first
  obtain ⟨more, adds', formed'⟩ := second
  refine ⟨_, ?_, choices?_or formed formed'⟩
  rw [show " or " = " " ++ "or" ++ " " from rfl, tokens_joined (by decide)]
  exact adds.append ((Adds.word "or").append adds')

theorem and (first : Reads left choices) (second : Reads right others) :
    Reads (left ++ " and " ++ right) (beside choices others) := by
  obtain ⟨pieces, adds, formed⟩ := first
  obtain ⟨more, adds', formed'⟩ := second
  refine ⟨_, ?_, choices?_and formed formed'⟩
  rw [show " and " = " " ++ "and" ++ " " from rfl, tokens_joined (by decide)]
  exact adds.append ((Adds.word "and").append adds')

/-- Parentheses make a unit of a text. -/
theorem group (inner : Reads text choices) : Reads ("(" ++ text ++ ")") [[.group choices]] := by
  obtain ⟨pieces, adds, formed⟩ := inner
  have opened : tokens ("(" ++ text) = .opening :: tokens text := tokens_opened "" text
  refine ⟨[.unit (.group choices)], ?_, rfl⟩
  rw [tokens_closed, opened]
  exact adds.group formed

theorem denial (inner : Reads text choices) :
    Reads ("not (" ++ text ++ ")") [[.denial (.group choices)]] := by
  obtain ⟨pieces, adds, formed⟩ := inner
  have opened : tokens ("not (" ++ text) = [.word "not"] ++ .opening :: tokens text :=
    tokens_opened "not " text
  refine ⟨[.word "not", .unit (.group choices)], ?_, rfl⟩
  rw [tokens_closed, opened, List.append_assoc]
  exact (Adds.word "not").append (adds.group formed)

theorem unit {f : Formula} (adds : Adds (tokens text) pieces)
    (uncut : ∀ p ∈ pieces, p.isWord "and" = false ∧ p.isWord "or" = false)
    (formed : unit? pieces = some f) : Reads text [[f]] := by
  refine ⟨pieces, adds, ?_⟩
  have single : units? pieces = some [f] := by
    rw [units?, List.splitOnP_eq_singleton fun p member => (uncut p member).1, List.mapM_cons,
      formed]
    rfl
  rw [choices?, List.splitOnP_eq_singleton fun p member => (uncut p member).2, List.mapM_cons,
    single]
  rfl

theorem existence (name : IsName text) : Reads ("exists " ++ text) [[.atom (.existence text)]] := by
  have parts : tokens ("exists " ++ text) = [.word "exists"] ++ [.word text] := by
    rw [← tokens_word name.word]
    exact tokens_spaced "exists" text
  have adds := (Adds.word "exists").append (Adds.word text)
  rw [← parts] at adds
  refine unit adds ?_ rfl
  simp [Piece.isWord, name.ne_and, name.ne_or]

theorem relation (r : Relation) (left_name : IsName left) (right_name : IsName right) :
    Reads (left ++ " " ++ r.sign ++ " " ++ right) [[.atom (.relation r left right)]] := by
  have sign_name := isName_sign r
  have adds := ((Adds.word left).append (Adds.word r.sign)).append (Adds.word right)
  rw [← tokens_word left_name.word, ← tokens_word sign_name.word, ← tokens_word right_name.word,
    ← tokens_spaced, ← tokens_spaced] at adds
  refine unit adds ?_ ?_
  · simp [Piece.isWord, left_name.ne_and, left_name.ne_or, sign_name.ne_and, sign_name.ne_or,
      right_name.ne_and, right_name.ne_or]
  · simp [unit?, Relation.ofSign?_sign, left_name.ne_not]

end Reads

end

end FlowDiagram.Transition
