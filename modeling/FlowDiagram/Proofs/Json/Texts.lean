import FlowDiagram.Json.Reader
import FlowDiagram.Json.Writer
import FlowDiagram.Proofs.Json.Documents
import FlowDiagram.Proofs.Text.Codes
/-!
# Reading back written texts

A text is written between quotes, in ASCII: other characters are escaped by their units of 16 bits.
Each character is read back from its escape, whatever stands behind it, as long as something does
(`stringBody_escaped`). So a text is read back from its quotes (`string_quoted`), and a mapping of
names to texts is the mapping that was written, whatever blanks stand around its entries
(`Blanks.read_mapping`).
-/

namespace FlowDiagram.Json

open Document Definition

section

variable {cs tail rest opening : List Char} {n : Nat}

/-! ## Characters -/

/-- Four digits are enough for a unit of 16 bits. -/
theorem unit?_hex (small : n < 0x10000) :
    ∃ a b c d, Text.hex 4 n = [a, b, c, d] ∧ unit? a b c d = some n := by
  refine ⟨_, _, _, _, rfl, ?_⟩
  simp only [unit?, Number.ofHex?, List.foldl_cons, List.foldl_nil, Text.hexValue?_hexDigit,
    Option.bind_some, Option.map_some, Option.some.injEq]
  omega

theorem isHighHalf_eq_false {c : Char} (char : Text.char? n = some c) :
    Text.isHighHalf n = false := by
  cases high : Text.isHighHalf n with
  | false => rfl
  | true => simp [Text.char?, high] at char

theorem withUnit_ok {c : Char} (char : Text.char? n = some c) :
    withUnit n (.ok (cs, tail)) = .ok (c :: cs, tail) := by
  simp only [withUnit, Except.bind, char]

theorem stringBody_unit {ch : Char} (read : stringBody opening rest = .ok (cs, tail))
    (small : n < 0x10000) (char : Text.char? n = some ch) :
    stringBody opening (unitEscape n ++ rest) = .ok (ch :: cs, tail) := by
  obtain ⟨a, b, c, d, digits, value⟩ := unit?_hex small
  have whole : Text.isHighHalf n = false := isHighHalf_eq_false char
  rw [unitEscape, digits]
  -- The reader looks for a second unit behind the first one, but only a half would need it.
  by_cases second : ∃ e f g h i more, rest = '\\' :: 'u' :: e :: f :: g :: h :: i :: more
  · obtain ⟨e, f, g, h, i, more, rfl⟩ := second
    simp only [List.cons_append, List.nil_append]
    rw [stringBody, value]
    simp only [whole, read]
    exact withUnit_ok char
  · cases rest with
    | nil => contradiction
    | cons e more =>
        simp only [List.cons_append, List.nil_append]
        rw [stringBody, value]
        · simp only [read]
          exact withUnit_ok char
        · rintro f g h i j more rfl rfl
          exact second ⟨_, _, _, _, _, _, rfl⟩

theorem stringBody_halves {high low : Nat} (read : stringBody opening rest = .ok (cs, tail))
    (first : Text.isHighHalf high = true) (second : Text.isLowHalf low = true) :
    stringBody opening (unitEscape high ++ unitEscape low ++ rest) =
      .ok (Text.charOfHalves high low :: cs, tail) := by
  have small : high < 0x10000 ∧ low < 0x10000 := by
    simp only [Text.isHighHalf, Text.isLowHalf, Bool.and_eq_true, decide_eq_true_eq] at first second
    omega
  obtain ⟨a, b, c, d, digits, value⟩ := unit?_hex small.1
  obtain ⟨e, f, g, h, digits', value'⟩ := unit?_hex small.2
  rw [unitEscape, unitEscape, digits, digits']
  cases rest with
  | nil => contradiction
  | cons i more =>
      simp only [List.cons_append, List.nil_append]
      rw [stringBody, value, value']
      simp only [first, second, read]
      rfl

theorem stringBody_letter {c d : Char} (read : stringBody opening rest = .ok (cs, tail))
    (stands : escapeOf? c = some d) :
    stringBody opening ('\\' :: c :: rest) = .ok (d :: cs, tail) := by
  have other : c ≠ 'u' := by
    rintro rfl
    contradiction
  rw [stringBody, stands, read]
  · rfl
  all_goals
    intros
    contradiction

theorem stringBody_plain {c : Char} (read : stringBody opening rest = .ok (cs, tail))
    (shown : ' ' ≤ c) (quote : c ≠ '"') (slash : c ≠ '\\') :
    stringBody opening (c :: rest) = .ok (c :: cs, tail) := by
  have drawn : ¬c.toNat < 0x20 := by
    have code : (' ').toNat ≤ c.toNat := shown
    simpa using code
  rw [stringBody, if_neg drawn, read]
  · rfl
  all_goals
    intros
    contradiction

/-- No character is half of another one. -/
theorem char?_toNat (c : Char) : Text.char? c.toNat = some c := by
  have apart : Text.isHighHalf c.toNat = false ∧ Text.isLowHalf c.toNat = false := by
    simp only [Text.isHighHalf, Text.isLowHalf, Bool.and_eq_false_iff, decide_eq_false_iff_not]
    have number := Text.toNat_cases c
    omega
  rw [Text.char?, apart.1, apart.2]
  exact congrArg some (Char.ofNat_toNat c)

theorem charOfHalves_toNat {c : Char} (wide : 0x10000 ≤ c.toNat) :
    let m := c.toNat - 0x10000
    Text.isHighHalf (0xD800 + m / 0x400) = true ∧ Text.isLowHalf (0xDC00 + m % 0x400) = true ∧
      Text.charOfHalves (0xD800 + m / 0x400) (0xDC00 + m % 0x400) = c := by
  intro m
  have number := Text.toNat_cases c
  have whole : 0x10000 + (0xD800 + m / 0x400 - 0xD800) * 0x400 + (0xDC00 + m % 0x400 - 0xDC00) =
      c.toNat := by omega
  refine ⟨?_, ?_, ?_⟩
  · simp only [Text.isHighHalf, Bool.and_eq_true, decide_eq_true_eq]
    omega
  · simp only [Text.isLowHalf, Bool.and_eq_true, decide_eq_true_eq]
    omega
  · rw [Text.charOfHalves, whole]
    exact Char.ofNat_toNat c

/-- A character is read back from its escape. -/
theorem stringBody_escaped (c : Char) (read : stringBody opening rest = .ok (cs, tail)) :
    stringBody opening (escaped c ++ rest) = .ok (c :: cs, tail) := by
  rw [escaped]
  split
  · next marked =>
      obtain rfl | rfl := marked
      · exact stringBody_letter read rfl
      · exact stringBody_letter read rfl
  next plain =>
  iterate 5
    split
    · next same => exact same ▸ stringBody_letter read rfl
  split
  · next shown =>
      rw [not_or] at plain
      exact stringBody_plain read shown.1 plain.1 plain.2
  split
  · next small => exact stringBody_unit read small (char?_toNat c)
  · next wide =>
      obtain ⟨first, second, same⟩ := charOfHalves_toNat (Nat.le_of_not_lt wide)
      dsimp only
      rw [stringBody_halves read first second, same]

theorem stringBody_flatMap (opening cs tail : List Char) :
    stringBody opening (cs.flatMap escaped ++ '"' :: tail) = .ok (cs, tail) := by
  induction cs with
  | nil => rfl
  | cons c rest ih =>
      rw [List.flatMap_cons, List.append_assoc]
      exact stringBody_escaped c ih

theorem isPlain_unitEscape (n : Nat) : ∀ c ∈ unitEscape n, Text.IsPlain c := by
  rw [unitEscape, List.forall_mem_cons, List.forall_mem_cons]
  exact ⟨by decide, by decide, Text.isPlain_hex 4 n⟩

theorem isPlain_escaped (c : Char) : ∀ d ∈ escaped c, Text.IsPlain d := by
  rw [escaped]
  split
  · next marked =>
      obtain rfl | rfl := marked <;> exact Text.forall_isPlain rfl
  iterate 5
    split
    · exact Text.forall_isPlain rfl
  split
  · next shown => exact List.forall_mem_singleton.mpr shown
  split
  · exact isPlain_unitEscape _
  · exact List.forall_mem_append.mpr ⟨isPlain_unitEscape _, isPlain_unitEscape _⟩

/-! ## Texts -/

theorem toList_quoted (s : String) :
    (quoted s).toList = '"' :: (s.toList.flatMap escaped ++ ['"']) := by
  rw [quoted, String.toList_ofList, List.cons_append]

/-- A text is read back from its quotes. -/
theorem string_quoted (s : String) (tail : List Char) :
    string ((quoted s).toList ++ tail) = .ok (s, tail) := by
  rw [string, toList_quoted]
  simp only [List.cons_append, List.drop_succ_cons, List.drop_zero, List.append_assoc,
    List.nil_append, stringBody_flatMap]
  exact congrArg (fun t => Except.ok (t, tail)) String.ofList_toList

theorem isPlain_quoted (s : String) : ∀ c ∈ (quoted s).toList, Text.IsPlain c := by
  rw [toList_quoted, List.forall_mem_cons, List.forall_mem_append]
  refine ⟨by decide, fun d member => ?_, Text.forall_isPlain rfl⟩
  obtain ⟨c, -, own⟩ := List.mem_flatMap.mp member
  exact isPlain_escaped c d own

theorem value_quoted (fuel : Nat) (s : String) (tail : List Char) :
    value (fuel + 1) ((quoted s).toList ++ tail) = .ok (.str s, tail) := by
  have read := string_quoted s tail
  rw [toList_quoted, List.cons_append] at read ⊢
  rw [value, read]
  rfl

/-! ## Mappings -/

/-- Names with texts as entries of a mapping. -/
def textEntries (fields : List (String × String)) : List (Value × Value) :=
  fields.map fun f => (.str f.1, .str f.2)

/-- How an entry is written. -/
def member (f : String × String) : String := quoted f.1 ++ ": " ++ quoted f.2

theorem toList_member (f : String × String) (tail : List Char) :
    (member f).toList ++ tail =
      (quoted f.1).toList ++ ':' :: ' ' :: ((quoted f.2).toList ++ tail) := by
  simp [member]

theorem isPlain_member (f : String × String) : ∀ c ∈ (member f).toList, Text.IsPlain c := by
  simp only [member, String.toList_append, List.forall_mem_append]
  exact ⟨⟨isPlain_quoted f.1, Text.forall_isPlain rfl⟩, isPlain_quoted f.2⟩

theorem skip_blank (cs : List Char) : skip (' ' :: cs) = skip cs := rfl

theorem skip_cons {c : Char} (cs : List Char) (mark : isSpace c = false) :
    skip (c :: cs) = c :: cs :=
  List.dropWhile_cons_of_neg (by simp [mark])

theorem skip_quoted (s : String) (tail : List Char) :
    skip ((quoted s).toList ++ tail) = (quoted s).toList ++ tail := by
  rw [toList_quoted]
  rfl

theorem skip_member (f : String × String) (tail : List Char) :
    skip ((member f).toList ++ tail) = (member f).toList ++ tail := by
  rw [toList_member, skip_quoted]

/-- The last entry. -/
theorem members_last (fuel : Nat) (f : String × String) (closed : skip rest = '\x7d' :: tail) :
    members (fuel + 2) ((member f).toList ++ rest) = .ok ([(.str f.1, .str f.2)], tail) := by
  have key := string_quoted f.1 (':' :: ' ' :: ((quoted f.2).toList ++ rest))
  rw [toList_member, toList_quoted f.1, List.cons_append] at *
  rw [members, key]
  dsimp only [bind, Except.bind]
  simp (disch := decide) only [skip_cons, skip_blank, skip_quoted, value_quoted, closed]

/-- An entry in front of others. -/
theorem members_next {fuel : Nat} {entries : List (Value × Value)} (f : String × String)
    {others : List Char} (comma : skip rest = ',' :: others)
    (behind : members (fuel + 1) (skip others) = .ok (entries, tail)) :
    members (fuel + 2) ((member f).toList ++ rest) =
      .ok ((.str f.1, .str f.2) :: entries, tail) := by
  have key := string_quoted f.1 (':' :: ' ' :: ((quoted f.2).toList ++ rest))
  rw [toList_member, toList_quoted f.1, List.cons_append] at *
  rw [members, key]
  dsimp only [bind, Except.bind]
  simp (disch := decide) only [skip_cons, skip_blank, skip_quoted, value_quoted, comma, behind]

/-! ### Blanks around entries -/

/-- The blanks that stand around the entries of a mapping. -/
structure Blanks where
  /-- behind the opening brace -/
  opening : String := ""
  /-- behind a comma -/
  between : String := ""
  /-- in front of an entry -/
  indent : String := ""
  /-- in front of the closing brace -/
  closing : String := ""
  blank : [opening, between, indent, closing].all (fun gap => gap.toList.all isSpace) = true := by
    decide

namespace Blanks

variable (b : Blanks)

theorem isSpace_of_mem {gap : String} (listed : gap ∈ [b.opening, b.between, b.indent, b.closing]) :
    ∀ c ∈ gap.toList, isSpace c = true :=
  List.all_eq_true.mp (List.all_eq_true.mp b.blank gap listed)

theorem skip_opening : skip (b.opening.toList ++ rest) = skip rest :=
  List.dropWhile_append_of_pos (b.isSpace_of_mem (by simp))

theorem skip_between : skip (b.between.toList ++ rest) = skip rest :=
  List.dropWhile_append_of_pos (b.isSpace_of_mem (by simp))

theorem skip_indent : skip (b.indent.toList ++ rest) = skip rest :=
  List.dropWhile_append_of_pos (b.isSpace_of_mem (by simp))

theorem skip_closing : skip (b.closing.toList ++ rest) = skip rest :=
  List.dropWhile_append_of_pos (b.isSpace_of_mem (by simp))

/-- The entries of a mapping. -/
def entries (fields : List (String × String)) : String :=
  ("," ++ b.between).intercalate (fields.map fun f => b.indent ++ member f)

/-- A mapping of names to texts. -/
def mapping (fields : List (String × String)) : String :=
  "\x7b" ++ b.opening ++ b.entries fields ++ b.closing ++ "\x7d"

theorem entries_cons_cons (f g : String × String) (fields : List (String × String)) :
    b.entries (f :: g :: fields) =
      b.indent ++ member f ++ "," ++ b.between ++ b.entries (g :: fields) := by
  simp [entries, String.intercalate_cons_cons, String.append_assoc]

theorem toList_mapping (fields : List (String × String)) :
    (b.mapping fields).toList = '\x7b' :: (b.opening.toList ++
      ((b.entries fields).toList ++ (b.closing.toList ++ ['\x7d']))) := by
  simp [mapping]

/-- The entries of a mapping are read with its closing brace. -/
theorem members_entries (f : String × String) (fields : List (String × String)) {fuel : Nat}
    (enough : fields.length < fuel) (tail : List Char) :
    members (fuel + 1) (skip ((b.entries (f :: fields)).toList ++
      (b.closing.toList ++ '\x7d' :: tail))) = .ok (textEntries (f :: fields), tail) := by
  induction fields generalizing f fuel with
  | nil =>
      obtain ⟨more, rfl⟩ := Nat.exists_eq_add_one.mpr enough
      have alone : (b.entries [f]).toList = b.indent.toList ++ (member f).toList := by
        simp [entries]
      rw [alone, List.append_assoc, skip_indent, skip_member]
      exact members_last more f b.skip_closing
  | cons g rest ih =>
      obtain ⟨more, rfl⟩ := Nat.exists_eq_add_one.mpr (Nat.zero_lt_of_lt enough)
      have behind := ih g (Nat.lt_of_succ_lt_succ enough)
      have joined : (b.entries (f :: g :: rest)).toList ++ (b.closing.toList ++ '\x7d' :: tail) =
          b.indent.toList ++ ((member f).toList ++ ',' :: (b.between.toList ++
            ((b.entries (g :: rest)).toList ++ (b.closing.toList ++ '\x7d' :: tail)))) := by
        simp [entries_cons_cons]
      rw [joined, skip_indent, skip_member]
      refine members_next f (skip_cons _ (by decide)) ?_
      rw [skip_between]
      exact behind

theorem length_le_entries (fields : List (String × String)) :
    fields.length ≤ (b.entries fields).toList.length := by
  have filled (f : String × String) : 1 ≤ (member f).toList.length := by
    have quote := toList_member f []
    rw [toList_quoted, List.append_nil] at quote
    rw [quote]
    simp
  induction fields with
  | nil => exact Nat.zero_le _
  | cons f rest ih =>
      have own := filled f
      cases rest with
      | nil =>
          have alone : (b.entries [f]).toList = b.indent.toList ++ (member f).toList := by
            simp [entries]
          rw [alone, List.length_append, List.length_singleton]
          omega
      | cons g rest =>
          rw [entries_cons_cons]
          simp only [String.toList_append, List.length_append, List.length_cons] at ih ⊢
          omega

end Blanks

/-- Entries with names of their own stay as they are. -/
theorem ofEntries_texts {fields : List (String × String)} (distinct : (fields.map Prod.fst).Nodup) :
    Value.ofEntries (textEntries fields) = .map (textEntries fields) := by
  have named : textEntries fields =
      (fields.map fun f => (f.1, Value.str f.2)).map fun e => (.str e.1, e.2) := by
    rw [List.map_map]
    rfl
  have apart : Entries.names (fields.map fun f => (f.1, Value.str f.2)) = fields.map Prod.fst := by
    rw [Entries.names, List.map_map]
    rfl
  rw [named, Value.ofEntries_fields, Entries.ofList_eq_self (apart ▸ distinct)]
  rfl

/-- How a mapping of names to texts is written. -/
def written (fields : List (String × String)) : String :=
  "\x7b" ++ ", ".intercalate (fields.map member) ++ "\x7d"

theorem toList_written (fields : List (String × String)) :
    (written fields).toList =
      '\x7b' :: ((", ".intercalate (fields.map member)).toList ++ ['\x7d']) := by
  simp [written]

/-- What is written is plain. -/
theorem isPlain_written (fields : List (String × String)) :
    ∀ c ∈ (written fields).toList, Text.IsPlain c := by
  have texts : ∀ c ∈ (", ".intercalate (fields.map member)).toList, Text.IsPlain c := by
    induction fields with
    | nil => exact fun _ none_left => absurd none_left List.not_mem_nil
    | cons f rest ih =>
        cases rest with
        | nil => simpa using isPlain_member f
        | cons g rest =>
            simp only [List.map_cons, String.intercalate_cons_cons, String.toList_append,
              List.forall_mem_append] at ih ⊢
            exact ⟨⟨isPlain_member f, Text.forall_isPlain rfl⟩, ih⟩
  rw [toList_written, List.forall_mem_cons, List.forall_mem_append]
  exact ⟨by decide, texts, Text.forall_isPlain rfl⟩

/-- Entries begin with the quote of a name. -/
theorem exists_quote_of_members {fuel : Nat} {found : List (Value × Value) × List Char}
    (read : members fuel cs = .ok found) : ∃ more, cs = '"' :: more := by
  cases fuel with
  | zero => contradiction
  | succ fuel =>
      rw [members.eq_def] at read
      dsimp only at read
      split at read
      · exact ⟨_, rfl⟩
      · contradiction

namespace Blanks

variable (b : Blanks) {fields : List (String × String)}

theorem value_mapping (distinct : (fields.map Prod.fst).Nodup) {fuel : Nat}
    (enough : fields.length ≤ fuel) :
    value (fuel + 2) (b.mapping fields).toList = .ok (.map (textEntries fields), []) := by
  rw [toList_mapping]
  cases fields with
  | nil =>
      have empty : (b.entries []).toList = [] := by simp [entries]
      rw [value, b.skip_opening, empty, List.nil_append, b.skip_closing]
      rfl
  | cons f rest =>
      have inner := b.members_entries f rest enough []
      obtain ⟨more, quote⟩ := exists_quote_of_members inner
      rw [quote] at inner
      rw [value, b.skip_opening, quote, ← ofEntries_texts distinct]
      exact congrArg (Except.map fun p => (Value.ofEntries p.1, p.2)) inner

/-- A mapping of names to texts is read back, whatever blanks are in it. -/
theorem read_mapping (distinct : (fields.map Prod.fst).Nodup) :
    read (b.mapping fields).toList = .ok (.map (textEntries fields)) := by
  have enough : fields.length ≤ 2 * (b.mapping fields).toList.length := by
    have long := b.length_le_entries fields
    rw [toList_mapping]
    simp only [List.length_cons, List.length_append]
    omega
  have opened : skip (b.mapping fields).toList = (b.mapping fields).toList := by
    rw [toList_mapping]
    rfl
  rw [read, opened, b.value_mapping distinct enough]
  · rfl
  · intro tail mark
    rw [toList_mapping] at mark
    cases mark

end Blanks

theorem written_eq (fields : List (String × String)) :
    written fields = Blanks.mapping { between := " " } fields := by
  simp [written, Blanks.mapping, Blanks.entries]

/-- A mapping of names to texts is read as it was written. -/
theorem read_written {fields : List (String × String)} (distinct : (fields.map Prod.fst).Nodup) :
    read (written fields).toList = .ok (.map (textEntries fields)) := by
  rw [written_eq]
  exact Blanks.read_mapping _ distinct

end

end FlowDiagram.Json
