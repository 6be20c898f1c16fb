import FlowDiagram.Json.Writer
import FlowDiagram.Proofs.Outcomes
/-!
# Values that can be written as JSON

A document may hold values that JSON does not have. A date, a moment, bytes or an integer with
too many digits cannot be written, and neither can a mapping with one of them as a key; whatever
contains such a part cannot be written either, and everything else can (`exists_write_iff`).
-/

namespace FlowDiagram

open Document

namespace Document.Value

/-- A value that is written as a key of a mapping. -/
inductive IsKey : Value → Prop where
  | null : IsKey .null
  | bool (b : Bool) : IsKey (.bool b)
  | int {n : Int} (short : Number.isShort n = true) : IsKey (.int n)
  | float (x : Float) : IsKey (.float x)
  | str (s : String) : IsKey (.str s)

/-- A value without dates, moments, bytes and long integers, also among its keys. -/
inductive HasJsonForm : Value → Prop where
  | null : HasJsonForm .null
  | bool (b : Bool) : HasJsonForm (.bool b)
  | int {n : Int} (short : Number.isShort n = true) : HasJsonForm (.int n)
  | float (x : Float) : HasJsonForm (.float x)
  | str (s : String) : HasJsonForm (.str s)
  | pair {key v : Value} (first : HasJsonForm key) (second : HasJsonForm v) :
      HasJsonForm (.pair key v)
  | seq {items : List Value} (each : ∀ v ∈ items, HasJsonForm v) : HasJsonForm (.seq items)
  | map {entries : List (Value × Value)} (keys : ∀ e ∈ entries, IsKey e.1)
      (values : ∀ e ∈ entries, HasJsonForm e.2) : HasJsonForm (.map entries)

theorem hasJsonForm_int {n : Int} : (int n).HasJsonForm ↔ Number.isShort n = true :=
  ⟨fun | .int short => short, .int⟩

theorem hasJsonForm_pair {key v : Value} :
    (pair key v).HasJsonForm ↔ key.HasJsonForm ∧ v.HasJsonForm :=
  ⟨fun | .pair first second => ⟨first, second⟩, fun ⟨first, second⟩ => .pair first second⟩

theorem hasJsonForm_seq {items : List Value} :
    (seq items).HasJsonForm ↔ ∀ v ∈ items, v.HasJsonForm :=
  ⟨fun | .seq each => each, .seq⟩

theorem hasJsonForm_map {entries : List (Value × Value)} :
    (map entries).HasJsonForm ↔ ∀ e ∈ entries, e.1.IsKey ∧ e.2.HasJsonForm :=
  ⟨fun | .map keys values => fun e member => ⟨keys e member, values e member⟩,
    fun each => .map (fun e member => (each e member).1) fun e member => (each e member).2⟩

end Document.Value

namespace Json

theorem exists_integerText_iff {n : Int} :
    (∃ text, integerText n = .ok text) ↔ Number.isShort n = true := by
  rw [integerText]
  split
  · next short => exact ⟨fun _ => short, fun _ => ⟨_, rfl⟩⟩
  · next long => exact ⟨nofun, fun short => absurd short long⟩

theorem exists_keyText_iff {v : Value} : (∃ text, keyText v = .ok text) ↔ v.IsKey := by
  constructor
  · rintro ⟨text, written⟩
    cases v with
    | null => exact .null
    | bool b => exact .bool b
    | int n => exact .int (exists_integerText_iff.mp ⟨text, written⟩)
    | float x => exact .float x
    | str s => exact .str s
    | _ => contradiction
  · rintro (_ | _ | short | _ | _)
    case int => exact exists_integerText_iff.mpr short
    all_goals exact ⟨_, rfl⟩

mutual

/-- A value can be written exactly if all of it has a form in JSON. -/
theorem exists_write_iff : ∀ {v : Value}, (∃ text, write v = .ok text) ↔ v.HasJsonForm
  | .null => ⟨fun _ => .null, fun _ => ⟨_, rfl⟩⟩
  | .bool b => ⟨fun _ => .bool b, fun _ => ⟨_, rfl⟩⟩
  | .int _ => exists_integerText_iff.trans Value.hasJsonForm_int.symm
  | .float x => ⟨fun _ => .float x, fun _ => ⟨_, rfl⟩⟩
  | .str s => ⟨fun _ => .str s, fun _ => ⟨_, rfl⟩⟩
  | .bytes _ | .date _ | .moment _ => ⟨nofun, nofun⟩
  | .pair key v => by
      rw [write, exists_both_iff, exists_write_iff, exists_write_iff, Value.hasJsonForm_pair]
  | .seq items => by
      rw [write, Value.hasJsonForm_seq, ← exists_writeItems_iff]
      exact exists_map_iff
  | .map entries => by
      rw [write, Value.hasJsonForm_map, ← exists_writeEntries_iff]
      exact exists_map_iff

theorem exists_writeItems_iff : ∀ {items : List Value},
    (∃ texts, writeItems items = .ok texts) ↔ ∀ v ∈ items, v.HasJsonForm
  | [] => ⟨fun _ _ member => absurd member List.not_mem_nil, fun _ => ⟨[], rfl⟩⟩
  | v :: rest => by
      rw [writeItems, exists_both_iff, exists_write_iff, exists_writeItems_iff,
        List.forall_mem_cons]

theorem exists_writeEntries_iff : ∀ {entries : List (Value × Value)},
    (∃ texts, writeEntries entries = .ok texts) ↔ ∀ e ∈ entries, e.1.IsKey ∧ e.2.HasJsonForm
  | [] => ⟨fun _ _ member => absurd member List.not_mem_nil, fun _ => ⟨[], rfl⟩⟩
  | (key, v) :: rest => by
      have later := @exists_writeEntries_iff rest
      rw [List.forall_mem_cons, ← later, ← exists_keyText_iff, ← exists_write_iff, writeEntries]
      cases keyText key with
      | error e => simp [bind, Except.bind]
      | ok name => exact exists_both_iff.trans (and_congr_left' (by simp))

end

end Json

end FlowDiagram
