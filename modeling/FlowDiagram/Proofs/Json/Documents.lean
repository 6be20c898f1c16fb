import FlowDiagram.Definition.Source
import FlowDiagram.Proofs.Definition.Keys
import FlowDiagram.Proofs.Json.Refusals
import Mathlib.Algebra.Group.Nat.Defs
/-!
# Documents of JSON texts

A JSON text is read as scalars, sequences, and mappings from texts to values. Of several values
under one key only the last one is kept, so no mapping, at any depth, has a key twice
(`Value.Canonical`, `isDocument_of_read`). In such a value an entry of a mapping is the one that is
found under its key.

A text with a document is not blank (`filled_of_read`): blanks of JSON are blank elsewhere too, and
nothing that is blank begins a value.
-/

namespace FlowDiagram

open Document Definition

/-! ## Records -/

namespace Document.Value

variable {fields : Entries Value} {name : String} {v : Value}

theorem get?_cons (name n : String) (v : Value) (rest : List (Value × Value)) :
    (map ((.str n, v) :: rest)).get? name = if name = n then some v else (map rest).get? name := by
  by_cases same : name = n
  · simp [get?, same]
  · simp [get?, same, Ne.symm same]

theorem get?_record (fields : Entries Value) (name : String) :
    (record fields).get? name = fields.get? name := by
  induction fields with
  | nil => rfl
  | cons first rest ih =>
      obtain ⟨n, w⟩ := first
      rw [Entries.get?_cons, ← ih]
      exact get?_cons name n w _

theorem put_record (name : String) (v : Value) (fields : Entries Value) :
    put (.str name) v (fields.map fun e => (.str e.1, e.2)) =
      (Entries.write name v fields).map fun e => (.str e.1, e.2) := by
  induction fields with
  | nil => rfl
  | cons first rest ih =>
      obtain ⟨n, w⟩ := first
      have same : (Value.str n).sameKey (.str name) = (n == name) := rfl
      rw [List.map_cons, put, Entries.write, same]
      by_cases here : n = name <;> simp [here, ih]

/-- Texts as keys are written as names are. -/
theorem ofEntries_fields (fields : Entries Value) :
    ofEntries (fields.map fun e => (.str e.1, e.2)) = record (Entries.ofList fields) := by
  have written (acc : Entries Value) :
      (fields.map fun e => (Value.str e.1, e.2)).foldl (fun es e => put e.1 e.2 es)
          (acc.map fun e => (.str e.1, e.2)) =
        (fields.foldl (fun es e => Entries.write e.1 e.2 es) acc).map fun e => (.str e.1, e.2) := by
    induction fields generalizing acc with
    | nil => rfl
    | cons first rest ih => rw [List.map_cons, List.foldl_cons, put_record, ih]; rfl
  exact congrArg Value.map (written [])

/-- Values of JSON whose mappings have each key once. The integers and the other numbers in them
each have a property. -/
inductive Canonical (integer : Int → Prop) (number : Float → Prop) : Value → Prop where
  | null : Canonical integer number .null
  | bool (b : Bool) : Canonical integer number (.bool b)
  | int {n : Int} (allowed : integer n) : Canonical integer number (.int n)
  | float {x : Float} (allowed : number x) : Canonical integer number (.float x)
  | str (s : String) : Canonical integer number (.str s)
  | seq {items : List Value} (each : ∀ v ∈ items, Canonical integer number v) :
      Canonical integer number (.seq items)
  | record {fields : Entries Value} (distinct : fields.names.Nodup)
      (each : ∀ e ∈ fields, Canonical integer number e.2) :
      Canonical integer number (.record fields)

/-- Values of JSON in its strict sense, which has finite numbers only. -/
abbrev Strict (v : Value) : Prop := v.Canonical (fun _ => True) (isFinite · = true)

namespace Canonical

variable {integer : Int → Prop} {number : Float → Prop}
variable {es : List (Value × Value)} {items : List Value}

theorem exists_fields (canonical : (map es).Canonical integer number) :
    ∃ fields : Entries Value, es = fields.map (fun e => (.str e.1, e.2)) ∧ fields.names.Nodup ∧
      ∀ e ∈ fields, e.2.Canonical integer number := by
  generalize whole : map es = v at canonical
  cases canonical with
  | record distinct each => exact ⟨_, map.inj whole, distinct, each⟩
  | _ => contradiction

theorem of_mem (canonical : (map es).Canonical integer number) {e : Value × Value}
    (member : e ∈ es) :
    e.2.Canonical integer number := by
  obtain ⟨fields, rfl, -, each⟩ := canonical.exists_fields
  obtain ⟨f, listed, rfl⟩ := List.mem_map.mp member
  exact each f listed

theorem of_get? {n : Value} (canonical : n.Canonical integer number)
    (found : n.get? name = some v) :
    v.Canonical integer number := by
  cases n with
  | map es =>
      obtain ⟨fields, rfl, -, each⟩ := canonical.exists_fields
      exact each _ (Entries.mem_of_get? ((get?_record fields name).symm.trans found))
  | _ => contradiction

theorem of_item (canonical : (Value.seq items).Canonical integer number) (member : v ∈ items) :
    v.Canonical integer number := by
  cases canonical with
  | seq each => exact each v member

end Canonical

end Document.Value

/-! ## Integers -/

namespace Number

theorem isShort_iff {n : Int} : isShort n = true ↔ n.natAbs < 10 ^ mostDigits := by
  rw [isShort, decide_eq_true_iff]
  exact Nat.length_toDigits_le_iff (by decide) (by decide)

theorem digitValue_lt {c : Char} (digit : c.isDigit = true) : digitValue c < 10 := by
  have last : c.toNat ≤ '9'.toNat := (Char.isDigit_iff_toNat.mp digit).2
  rw [digitValue]
  exact Nat.lt_of_le_of_lt (Nat.sub_le_sub_right last _) (by decide)

/-- So many digits denote a number below that power of ten. -/
theorem ofDigits_lt {ds : List Char} (digits : ∀ c ∈ ds, c.isDigit = true) :
    ofDigits ds < 10 ^ ds.length := by
  have behind (n : Nat) :
      ds.foldl (fun n c => 10 * n + digitValue c) n < (n + 1) * 10 ^ ds.length := by
    induction ds generalizing n with
    | nil => simp
    | cons c rest ih =>
        obtain ⟨first, later⟩ := List.forall_mem_cons.mp digits
        have next := ih later (10 * n + digitValue c)
        have small := digitValue_lt first
        calc (c :: rest).foldl (fun n c => 10 * n + digitValue c) n
            < (10 * n + digitValue c + 1) * 10 ^ rest.length := next
          _ ≤ (10 * (n + 1)) * 10 ^ rest.length := Nat.mul_le_mul_right _ (by omega)
          _ = (n + 1) * 10 ^ (rest.length + 1) := by rw [Nat.pow_succ]; ac_rfl
  simpa [ofDigits] using behind 0

/-- An integer that is read is short enough to be written. -/
theorem isShort_ofDigits {ds : List Char} (digits : ∀ c ∈ ds, c.isDigit = true)
    (few : ds.length ≤ mostDigits) : isShort (ofDigits ds) = true :=
  isShort_iff.mpr (Nat.lt_of_lt_of_le (ofDigits_lt digits) (Nat.pow_le_pow_right (by decide) few))

end Number

namespace Json

/-! ## Reading -/

/-- A value that a JSON text has: its integers are short, and any other number may be in it. -/
abbrev IsDocument (v : Value) : Prop := v.Canonical (Number.isShort · = true) fun _ => True

section

variable {v : Value} {cs rest : List Char}

theorem isDocument_of_constant? (found : constant? cs = some (v, rest)) : IsDocument v := by
  obtain ⟨⟨name, value⟩, listed, read⟩ := List.exists_of_findSome?_eq_some found
  obtain ⟨tail, -, same⟩ := Option.map_eq_some_iff.mp read
  obtain rfl := (Prod.mk.inj same).1
  simp only [List.mem_cons, Prod.mk.injEq, List.not_mem_nil, or_false] at listed
  obtain ⟨-, rfl⟩ | ⟨-, rfl⟩ | ⟨-, rfl⟩ | ⟨-, rfl⟩ | ⟨-, rfl⟩ | ⟨-, rfl⟩ := listed
  · exact .null
  · exact .bool true
  · exact .bool false
  · exact .float trivial
  · exact .float trivial
  · exact .float trivial

theorem isDocument_of_magnitude {negative : Bool} {start : List Char}
    (read : magnitude negative start cs = .ok (v, rest)) : IsDocument v := by
  unfold magnitude at read
  dsimp only at read
  split at read
  · contradiction
  · split at read
    · split at read
      · contradiction
      · next few =>
          have short := Number.isShort_ofDigits isDigit_of_mem_whole (Nat.le_of_not_gt few)
          cases read
          cases negative with
          | false => exact .int short
          | true => exact .int ((Number.isShort_neg _).trans short)
    · cases read
      exact .float trivial

theorem isDocument_of_number (read : number cs = .ok (v, rest)) : IsDocument v := by
  unfold number at read
  split at read
  · exact isDocument_of_magnitude read
  · exact isDocument_of_magnitude read

/-- Of several values under one key the last one is kept, so that no key stands twice. -/
theorem isDocument_ofEntries {fields : Entries Value} (each : ∀ e ∈ fields, IsDocument e.2) :
    IsDocument (Value.ofEntries (fields.map fun e => (.str e.1, e.2))) := by
  rw [Value.ofEntries_fields]
  exact .record (Entries.nodup_names_ofList _)
    fun e member => each e (Entries.mem_of_mem_ofList member)

mutual

theorem isDocument_of_value : ∀ (fuel : Nat) {cs rest : List Char} {v : Value},
    value fuel cs = .ok (v, rest) → IsDocument v
  | 0, cs, rest, v, read => by contradiction
  | fuel + 1, cs, rest, v, read => by
      unfold value at read
      split at read
      · obtain ⟨⟨s, tail⟩, -, same⟩ := map_eq_ok_iff.mp read
        cases same
        exact .str s
      · split at read
        · cases read
          exact .seq fun v member => absurd member List.not_mem_nil
        · obtain ⟨⟨vs, tail⟩, inner, same⟩ := map_eq_ok_iff.mp read
          cases same
          exact .seq (isDocument_of_elements fuel inner)
      · split at read
        · cases read
          change IsDocument (Value.ofEntries [])
          exact isDocument_ofEntries fun e member => absurd member List.not_mem_nil
        · obtain ⟨⟨es, tail⟩, inner, same⟩ := map_eq_ok_iff.mp read
          obtain ⟨fields, rfl, each⟩ := exists_fields_of_members fuel inner
          cases same
          exact isDocument_ofEntries each
      · split at read
        · next found =>
            cases read
            exact isDocument_of_constant? found
        · exact isDocument_of_number read
termination_by structural fuel => fuel

theorem isDocument_of_elements : ∀ (fuel : Nat) {cs rest : List Char} {vs : List Value},
    elements fuel cs = .ok (vs, rest) → ∀ v ∈ vs, IsDocument v
  | 0, cs, rest, vs, read => by contradiction
  | fuel + 1, cs, rest, vs, read => by
      rw [elements] at read
      obtain ⟨⟨v, behind⟩, first, read⟩ := bind_eq_ok_iff.mp read
      have own := isDocument_of_value fuel first
      dsimp only at read
      split at read
      · cases read
        exact List.forall_mem_singleton.mpr own
      · obtain ⟨⟨others, tail⟩, later, read⟩ := bind_eq_ok_iff.mp read
        cases read
        exact List.forall_mem_cons.mpr ⟨own, isDocument_of_elements fuel later⟩
      · contradiction
termination_by structural fuel => fuel

theorem exists_fields_of_members : ∀ (fuel : Nat) {cs rest : List Char}
    {es : List (Value × Value)}, members fuel cs = .ok (es, rest) →
      ∃ fields : Entries Value, fields.map (fun e => (.str e.1, e.2)) = es ∧
        ∀ e ∈ fields, IsDocument e.2
  | 0, cs, rest, es, read => by contradiction
  | fuel + 1, cs, rest, es, read => by
      unfold members at read
      split at read
      · obtain ⟨⟨key, behind⟩, -, read⟩ := bind_eq_ok_iff.mp read
        dsimp only at read
        split at read
        · obtain ⟨⟨v, behind⟩, first, read⟩ := bind_eq_ok_iff.mp read
          have own := isDocument_of_value fuel first
          dsimp only at read
          split at read
          · cases read
            exact ⟨[(key, v)], rfl, List.forall_mem_singleton.mpr own⟩
          · obtain ⟨⟨others, tail⟩, later, read⟩ := bind_eq_ok_iff.mp read
            cases read
            obtain ⟨fields, rfl, each⟩ := exists_fields_of_members fuel later
            exact ⟨(key, v) :: fields, rfl, List.forall_mem_cons.mpr ⟨own, each⟩⟩
          · contradiction
        · contradiction
      · contradiction
termination_by structural fuel => fuel

end

/-- No mapping in what is read from a JSON text has a key twice. -/
theorem isDocument_of_read {text : List Char} (loaded : read text = .ok v) : IsDocument v := by
  unfold read at loaded
  dsimp only at loaded
  split at loaded
  · contradiction
  split at loaded
  · contradiction
  · next found =>
      split at loaded
      · cases loaded
        exact isDocument_of_value _ found
      · contradiction

end

/-! ## Texts with a document are not blank -/

section

variable {v : Value} {cs rest : List Char}

theorem isBlank_of_isDigit {c : Char} (digit : c.isDigit = true) : Text.isBlank c = false := by
  have low : 48 ≤ c.toNat ∧ c.toNat ≤ 57 := by
    simpa [Char.isDigit, UInt32.le_iff_toNat_le] using digit
  simp [Text.isBlank, Text.isWhite]
  omega

theorem mem_of_word? {w : Char} {ws : List Char} (found : word? (w :: ws) cs = some rest) :
    w ∈ cs := by
  cases cs with
  | nil => contradiction
  | cons c tail =>
      rw [word?] at found
      split at found
      · next same => exact same ▸ List.mem_cons_self
      · contradiction

/-- Words begin with letters or a sign. -/
theorem exists_filled_of_constant? (found : constant? cs = some (v, rest)) :
    ∃ c ∈ cs, Text.isBlank c = false := by
  obtain ⟨⟨name, value⟩, listed, read⟩ := List.exists_of_findSome?_eq_some found
  obtain ⟨tail, word, -⟩ := Option.map_eq_some_iff.mp read
  simp only [List.mem_cons, Prod.mk.injEq, List.not_mem_nil, or_false] at listed
  obtain ⟨rfl, -⟩ | ⟨rfl, -⟩ | ⟨rfl, -⟩ | ⟨rfl, -⟩ | ⟨rfl, -⟩ | ⟨rfl, -⟩ := listed
  all_goals exact ⟨_, mem_of_word? word, by decide⟩

/-- Numbers have digits. -/
theorem exists_filled_of_whole (some : (whole cs).1 ≠ []) : ∃ c ∈ cs, Text.isBlank c = false := by
  unfold whole at some
  split at some
  · exact ⟨'0', List.mem_cons_self, by decide⟩
  · obtain ⟨c, member⟩ := List.exists_mem_of_ne_nil _ some
    exact ⟨c, (List.takeWhile_sublist _).subset member,
      isBlank_of_isDigit (List.mem_takeWhile_imp member)⟩

theorem exists_filled_of_number (read : number cs = .ok (v, rest)) :
    ∃ c ∈ cs, Text.isBlank c = false := by
  unfold number at read
  split at read
  · exact ⟨'-', List.mem_cons_self, by decide⟩
  · unfold magnitude at read
    dsimp only at read
    split at read
    · contradiction
    · next some => exact exists_filled_of_whole (by simpa using some)

theorem exists_filled_of_value {fuel : Nat} (read : value fuel cs = .ok (v, rest)) :
    ∃ c ∈ cs, Text.isBlank c = false := by
  cases fuel with
  | zero => contradiction
  | succ fuel =>
      unfold value at read
      split at read
      · exact ⟨'"', List.mem_cons_self, by decide⟩
      · exact ⟨'[', List.mem_cons_self, by decide⟩
      · exact ⟨'\x7b', List.mem_cons_self, by decide⟩
      · split at read
        · next found =>
            cases read
            exact exists_filled_of_constant? found
        · exact exists_filled_of_number read

theorem isBlankText_eq_false {text : String} {c : Char} (member : c ∈ text.toList)
    (filled : Text.isBlank c = false) : isBlankText text = false :=
  List.all_eq_false.mpr ⟨c, member, by simp [filled]⟩

theorem filled_of_read {text : String} (loaded : read text.toList = .ok v) :
    isBlankText text = false := by
  unfold read at loaded
  dsimp only at loaded
  split at loaded
  · contradiction
  split at loaded
  · contradiction
  · next found =>
      obtain ⟨c, member, filled⟩ := exists_filled_of_value found
      exact isBlankText_eq_false ((List.dropWhile_sublist _).subset member) filled

/-! ## Texts with too many digits -/

theorem mostDigits_lt_of_read {digits : Nat} (stopped : read cs = .error (.longInteger digits)) :
    Number.mostDigits < digits := by
  cases stops_of_read stopped with
  | longInteger stands row long => exact long

/-- Digits are not blank either. -/
theorem filled_of_longInteger {text : String} {digits : Nat}
    (stopped : read text.toList = .error (.longInteger digits)) : isBlankText text = false := by
  cases stops_of_read stopped with
  | longInteger stands row long =>
      obtain ⟨c, member⟩ := List.exists_mem_of_length_pos (Nat.zero_lt_of_lt long)
      exact isBlankText_eq_false (stands.subset member) (isBlank_of_isDigit (row c member))

end

end Json

end FlowDiagram
