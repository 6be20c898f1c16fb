import FlowDiagram.Json.Reader
import FlowDiagram.Proofs.Outcomes
import Mathlib.Data.List.TakeWhile
/-!
# What stops the reader of JSON

The reader stops where a text breaks the grammar, and at two things that the grammar allows: an
integer with too many digits, and the escape of half a code point. What it stops at stands in the
text (`stops_of_read`).

Each part of the reader leaves the end of the text that it was given (`Reads`), so what stops a
later part stands in the whole text as well.
-/

namespace FlowDiagram.Json

open Document

/-- What stops a reader stands in the text, unless the text is malformed. -/
inductive Stops {place : Type} (cs : List Char) : Fault place → Prop where
  | malformed (stop : place) : Stops cs (.malformed stop)
  | longInteger {ds : List Char} (stands : ds <:+: cs) (digits : ∀ c ∈ ds, c.isDigit = true)
      (long : Number.mostDigits < ds.length) : Stops cs (.longInteger ds.length)
  | half {a b c d : Char} {n : Nat} (stands : ['\\', 'u', a, b, c, d] <:+: cs)
      (unit : unit? a b c d = some n) (half : Text.char? n = none) : Stops cs (.foreign .half)

/-- A reader leaves the end of its text, or stops at something in it. -/
def Reads {α : Type} (cs : List Char) : Reading α → Prop
  | .ok (_, rest) => rest <:+ cs
  | .error fault => Stops cs fault

section

variable {α β place : Type} {cs ds rest : List Char} {x : Reading α} {fault : Fault place}

theorem Stops.mono (stops : Stops cs fault) (part : cs <:+: ds) : Stops ds fault := by
  cases stops with
  | malformed stop => exact .malformed stop
  | longInteger stands digits long => exact .longInteger (stands.trans part) digits long
  | half stands unit half => exact .half (stands.trans part) unit half

theorem Stops.map {p : Type} {name : place → p} (stops : Stops cs fault) :
    Stops cs (fault.map name) := by
  cases stops with
  | malformed stop => exact .malformed (name stop)
  | longInteger stands digits long => exact .longInteger stands digits long
  | half stands unit half => exact .half stands unit half

theorem Reads.mono (reads : Reads cs x) (part : cs <:+ ds) : Reads ds x := by
  cases x with
  | error fault => exact Stops.mono reads part.isInfix
  | ok read => exact List.IsSuffix.trans reads part

theorem Reads.map {f : α → β} (reads : Reads cs x) :
    Reads cs (x.map fun (a, rest) => (f a, rest)) := by
  cases x with
  | error fault => exact reads
  | ok read => exact reads

/-- What comes second reads what the first has left. -/
theorem Reads.bind {f : α × List Char → Reading β} (first : Reads cs x)
    (next : ∀ a rest, rest <:+ cs → Reads rest (f (a, rest))) : Reads cs (x.bind f) := by
  cases x with
  | error fault => exact first
  | ok read => exact (next read.1 read.2 first).mono first

/-! ## Texts -/

theorem reads_withUnit {a b c d : Char} {n : Nat} {r : Reading (List Char)} (reads : Reads rest r)
    (unit : unit? a b c d = some n) :
    Reads ('\\' :: 'u' :: a :: b :: c :: d :: rest) (withUnit n r) := by
  have behind : rest <:+ '\\' :: 'u' :: a :: b :: c :: d :: rest :=
    List.suffix_append ['\\', 'u', a, b, c, d] rest
  have escape : ['\\', 'u', a, b, c, d] <:+: '\\' :: 'u' :: a :: b :: c :: d :: rest :=
    (List.prefix_append _ rest).isInfix
  cases r with
  | error fault => exact Stops.mono reads behind.isInfix
  | ok read =>
      cases char : Text.char? n with
      | some ch =>
          simp only [withUnit, Except.bind, char]
          exact List.IsSuffix.trans reads behind
      | none =>
          simp only [withUnit, Except.bind, char]
          exact .half escape unit char

theorem reads_stringBody (opening cs : List Char) : Reads cs (stringBody opening cs) := by
  fun_induction stringBody opening cs with
  | case1 | case3 | case4 | case8 | case10 | case11 | case12 | case14 => exact .malformed _
  | case2 rest => exact List.suffix_cons '"' rest
  | case5 a b c d e f g h i rest high first isHigh low second isLow ih =>
      exact ih.map.mono (List.suffix_append ['\\', 'u', a, b, c, d, '\\', 'u', e, f, g, h] _)
  | case6 a b c d e f g h i rest high first isHigh low second isLow ih =>
      exact reads_withUnit ih first
  | case7 a b c d e f g h i rest high first isHigh ih => exact reads_withUnit ih first
  | case9 a b c d e rest _ n unit ih => exact reads_withUnit ih unit
  | case13 c rest _ _ _ _ _ ih => exact ih.map.mono (List.suffix_append ['\\', c] rest)
  | case15 c rest _ _ _ _ _ _ shown ih => exact ih.map.mono (List.suffix_cons c rest)

theorem reads_string (cs : List Char) : Reads cs (string cs) :=
  (reads_stringBody cs (cs.drop 1)).map.mono (List.drop_suffix 1 cs)

/-! ## Numbers -/

theorem suffix_skip (cs : List Char) : skip cs <:+ cs := List.dropWhile_suffix _

theorem suffix_word? {w : List Char} (read : word? w cs = some rest) : rest <:+ cs := by
  fun_induction word? w cs with
  | case1 cs =>
      cases read
      exact List.suffix_refl _
  | case2 ws c cs ih => exact (ih read).trans (List.suffix_cons c cs)
  | case3 | case4 => contradiction

theorem suffix_constant? {v : Value} (read : constant? cs = some (v, rest)) : rest <:+ cs := by
  obtain ⟨⟨name, value⟩, -, found⟩ := List.exists_of_findSome?_eq_some read
  obtain ⟨tail, left, same⟩ := Option.map_eq_some_iff.mp found
  cases same
  exact suffix_word? left

theorem suffix_fraction (cs : List Char) : (fraction cs).2 <:+ cs := by
  unfold fraction
  split
  · next rest =>
      dsimp only
      split
      · exact List.suffix_refl _
      · exact (List.dropWhile_suffix _).trans (List.suffix_cons '.' rest)
  · exact List.suffix_refl _

theorem suffix_splitSign (cs : List Char) : (Number.splitSign cs).2 <:+ cs := by
  unfold Number.splitSign
  split
  · exact List.suffix_cons _ _
  · exact List.suffix_cons _ _
  · exact List.suffix_refl _

theorem suffix_power (cs : List Char) : (power cs).2 <:+ cs := by
  unfold power
  split
  · exact List.suffix_refl _
  · next c rest =>
      split
      · dsimp only
        split
        · exact List.suffix_refl _
        · exact ((List.dropWhile_suffix _).trans (suffix_splitSign rest)).trans
            (List.suffix_cons c rest)
      · exact List.suffix_refl _

/-- The whole part of a number are the digits in front of what is left. -/
theorem whole_append (cs : List Char) : (whole cs).1 ++ (whole cs).2 = cs := by
  unfold whole
  split
  · rfl
  · exact List.takeWhile_append_dropWhile

theorem isDigit_of_mem_whole : ∀ c ∈ (whole cs).1, c.isDigit = true := by
  unfold whole
  split
  · exact List.forall_mem_singleton.mpr (by decide)
  · exact fun c member => List.mem_takeWhile_imp member

theorem reads_magnitude (negative : Bool) (start cs : List Char) :
    Reads cs (magnitude negative start cs) := by
  have digits : (whole cs).1 <:+: cs := ⟨[], _, whole_append cs⟩
  have left : (whole cs).2 <:+ cs := ⟨_, whole_append cs⟩
  have behind := ((suffix_power _).trans (suffix_fraction (whole cs).2)).trans left
  unfold magnitude
  dsimp only
  split
  · exact .malformed _
  · split
    · split
      · next long => exact .longInteger digits isDigit_of_mem_whole long
      · exact behind
    · exact behind

theorem reads_number (cs : List Char) : Reads cs (number cs) := by
  unfold number
  split
  · next rest => exact (reads_magnitude true _ rest).mono (List.suffix_cons '-' rest)
  · exact reads_magnitude false cs cs

/-! ## Values -/

mutual

theorem reads_value : ∀ (fuel : Nat) (cs : List Char), Reads cs (value fuel cs)
  | 0, cs => .malformed cs
  | fuel + 1, cs => by
      unfold value
      split
      · exact (reads_string _).map
      · next rest =>
          have inside := (suffix_skip rest).trans (List.suffix_cons '[' rest)
          split
          · next tail closed => exact (List.suffix_cons ']' tail).trans (closed ▸ inside)
          · exact ((reads_elements fuel _).mono inside).map
      · next rest =>
          have inside := (suffix_skip rest).trans (List.suffix_cons '\x7b' rest)
          split
          · next tail closed => exact (List.suffix_cons '\x7d' tail).trans (closed ▸ inside)
          · exact ((reads_members fuel _).mono inside).map
      · split
        · next found => exact suffix_constant? found
        · exact reads_number _
termination_by structural fuel => fuel

theorem reads_elements : ∀ (fuel : Nat) (cs : List Char), Reads cs (elements fuel cs)
  | 0, cs => .malformed cs
  | fuel + 1, cs => by
      rw [elements]
      refine (reads_value fuel cs).bind fun v rest _ => ?_
      have behind := suffix_skip rest
      dsimp only
      split
      · next tail closed => exact (List.suffix_cons ']' tail).trans (closed ▸ behind)
      · next tail comma =>
          have others := (suffix_skip tail).trans
            ((List.suffix_cons ',' tail).trans (comma ▸ behind))
          exact ((reads_elements fuel _).mono others).bind fun vs rest _ => List.suffix_refl rest
      · exact .malformed _
termination_by structural fuel => fuel

theorem reads_members : ∀ (fuel : Nat) (cs : List Char), Reads cs (members fuel cs)
  | 0, cs => .malformed cs
  | fuel + 1, cs => by
      unfold members
      split
      · refine (reads_string _).bind fun key rest _ => ?_
        have afterKey := suffix_skip rest
        dsimp only
        split
        · next body colon =>
            have inside := (suffix_skip body).trans
              ((List.suffix_cons ':' body).trans (colon ▸ afterKey))
            refine ((reads_value fuel _).mono inside).bind fun v rest _ => ?_
            have behind := suffix_skip rest
            dsimp only
            split
            · next tail closed => exact (List.suffix_cons '\x7d' tail).trans (closed ▸ behind)
            · next tail comma =>
                have others := (suffix_skip tail).trans
                  ((List.suffix_cons ',' tail).trans (comma ▸ behind))
                exact ((reads_members fuel _).mono others).bind
                  fun es rest _ => List.suffix_refl rest
            · exact .malformed _
        · exact .malformed _
      · exact .malformed _
termination_by structural fuel => fuel

end

/-- What stops the reader stands in the text, unless the text is malformed. -/
theorem stops_of_read {fault : Fault Nat} (stopped : read cs = .error fault) : Stops cs fault := by
  unfold read at stopped
  dsimp only at stopped
  split at stopped
  · cases stopped
    exact .malformed _
  · have reads := (reads_value (2 * cs.length + 2) (skip cs)).mono (suffix_skip cs)
    split at stopped
    · next inner found =>
        cases stopped
        rw [found] at reads
        exact Stops.map reads
    · split at stopped
      · contradiction
      · cases stopped
        exact .malformed _

end

/-! ## Too many digits -/

section

variable {d : Char} {ds rest : List Char}

theorem whole_of_digits (digits : ∀ c ∈ d :: ds, c.isDigit = true) (leading : d ≠ '0') :
    whole (d :: ds ++ ']' :: rest) = (d :: ds, ']' :: rest) := by
  have bracket : (']').isDigit = false := by decide
  rw [whole, List.takeWhile_append_of_pos digits, List.dropWhile_append_of_pos digits,
    List.takeWhile_cons_of_neg (by simp [bracket]), List.dropWhile_cons_of_neg (by simp [bracket]),
    List.append_nil]
  rintro more same
  exact leading (List.cons.inj same).1

theorem magnitude_of_long (negative : Bool) (start : List Char)
    (digits : ∀ c ∈ d :: ds, c.isDigit = true) (leading : d ≠ '0')
    (long : Number.mostDigits < (d :: ds).length) :
    magnitude negative start (d :: ds ++ ']' :: rest) = .error (.longInteger (d :: ds).length) := by
  rw [magnitude, whole_of_digits digits leading]
  exact if_pos long

theorem value_one (fuel : Nat) (cs : List Char) :
    value (fuel + 1) ('1' :: cs) = magnitude false ('1' :: cs) ('1' :: cs) := by
  have word : constant? ('1' :: cs) = none := by simp [constant?, word?]
  rw [value, word]
  · rfl
  all_goals rintro rest ⟨⟩

/-- A text with one edge, which is an integer that begins with a one. -/
def numberedEdge (ds : List Char) : String :=
  "\x7b\"edges\": [" ++ String.ofList ('1' :: ds) ++ "]\x7d"

/-- The list of its edges. -/
def edgeList (ds : List Char) : List Char := '[' :: '1' :: (ds ++ [']', '\x7d'])

theorem toList_numberedEdge (ds : List Char) :
    (numberedEdge ds).toList =
      '\x7b' :: '"' :: 'e' :: 'd' :: 'g' :: 'e' :: 's' :: '"' :: ':' :: ' ' :: edgeList ds := by
  simp [numberedEdge, edgeList]

/-- The reader of the list stops at the integer. -/
theorem value_edgeList (digits : ∀ c ∈ ds, c.isDigit = true)
    (long : Number.mostDigits < ('1' :: ds).length) (fuel : Nat) :
    value (fuel + 3) (edgeList ds) = .error (.longInteger ('1' :: ds).length) := by
  have row : ∀ c ∈ '1' :: ds, c.isDigit = true := List.forall_mem_cons.mpr ⟨by decide, digits⟩
  have integer : value (fuel + 1) ('1' :: (ds ++ [']', '\x7d'])) =
      .error (.longInteger ('1' :: ds).length) := by
    rw [value_one]
    exact magnitude_of_long false _ row (by decide) long
  have items : elements (fuel + 2) ('1' :: (ds ++ [']', '\x7d'])) =
      .error (.longInteger ('1' :: ds).length) := by
    rw [elements, integer]
    rfl
  exact congrArg (Except.map fun read : List Value × List Char => (Value.seq read.1, read.2)) items

/-- What stops the reader in the list stops it in the whole text. -/
theorem value_numberedEdge {fault : Fault (List Char)} {fuel : Nat}
    (stopped : value (fuel + 3) (edgeList ds) = .error fault) :
    value (fuel + 5) (numberedEdge ds).toList = .error fault := by
  have entries :
      members (fuel + 4) ('"' :: 'e' :: 'd' :: 'g' :: 'e' :: 's' :: '"' :: ':' :: ' ' ::
        edgeList ds) = .error fault := by
    have key : string ('"' :: 'e' :: 'd' :: 'g' :: 'e' :: 's' :: '"' :: ':' :: ' ' :: edgeList ds) =
        .ok ("edges", ':' :: ' ' :: edgeList ds) := rfl
    have colon : skip (':' :: ' ' :: edgeList ds) = ':' :: ' ' :: edgeList ds := rfl
    have blank : skip (' ' :: edgeList ds) = edgeList ds := rfl
    rw [members, key]
    simp only [bind, Except.bind, colon, blank, stopped]
  rw [toList_numberedEdge]
  exact congrArg (Except.map fun read => (Value.ofEntries read.1, read.2)) entries

/-- Such a text is JSON, and the reader stops at its integer if it has too many digits. -/
theorem read_numberedEdge (digits : ∀ c ∈ ds, c.isDigit = true)
    (long : Number.mostDigits < ('1' :: ds).length) :
    read (numberedEdge ds).toList = .error (.longInteger ('1' :: ds).length) := by
  have start : skip (numberedEdge ds).toList = (numberedEdge ds).toList := by
    rw [toList_numberedEdge]
    rfl
  obtain ⟨fuel, enough⟩ : ∃ fuel, 2 * (numberedEdge ds).toList.length + 2 = fuel + 5 := by
    rw [toList_numberedEdge]
    exact ⟨2 * (edgeList ds).length + 17, by simp only [List.length_cons]; omega⟩
  rw [read]
  · dsimp only
    rw [enough, start, value_numberedEdge (value_edgeList digits long fuel)]
    rfl
  · rw [toList_numberedEdge]
    rintro rest ⟨⟩

theorem read_ones {n : Nat} (many : Number.mostDigits ≤ n) :
    read (numberedEdge (List.replicate n '1')).toList = .error (.longInteger (n + 1)) := by
  have ones : ∀ c ∈ List.replicate n '1', c.isDigit = true := by
    intro c member
    obtain rfl := List.eq_of_mem_replicate member
    decide
  have row : ('1' :: List.replicate n '1').length = n + 1 := by
    rw [List.length_cons, List.length_replicate]
  rw [read_numberedEdge ones (row ▸ Nat.lt_succ_of_le many), row]

end

end FlowDiagram.Json
