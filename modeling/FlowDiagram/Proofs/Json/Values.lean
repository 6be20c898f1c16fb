import FlowDiagram.Definition.Payload
import FlowDiagram.Json.Reader
import FlowDiagram.Proofs.Json.Documents
import FlowDiagram.Transition.Label
/-!
# Values that JSON has

A JSON text holds null, truth values, numbers, texts, sequences and mappings with texts as
keys, and its integers are short. `InJson` says this of a value at every depth, and everything
that is read from a JSON text has it (`inJson_of_read`).

Nothing can go wrong when such a value is shown: it can be written (`exists_write`), it has a
plain form (`exists_plain`), and it has a text as a condition, whatever shape it has
(`rendered_of_inJson`).
-/

namespace FlowDiagram

open Document Definition Transition

namespace Document.Value

/-- The value of some JSON text. -/
inductive InJson : Value → Prop where
  | null : InJson .null
  | bool (b : Bool) : InJson (.bool b)
  | int {n : Int} (short : Number.isShort n = true) : InJson (.int n)
  | float (x : Float) : InJson (.float x)
  | str (s : String) : InJson (.str s)
  | seq {items : List Value} (each : ∀ v ∈ items, InJson v) : InJson (.seq items)
  | map {entries : List (Value × Value)} (keys : ∀ e ∈ entries, ∃ name, e.1 = .str name)
      (values : ∀ e ∈ entries, InJson e.2) : InJson (.map entries)

end Document.Value

namespace Json

variable {v : Value} {items : List Value} {es : List (Value × Value)} {cs rest : List Char}

/-! ## Reading -/

/-- Entries of a mapping of some JSON text. -/
def EntriesInJson (es : List (Value × Value)) : Prop :=
  ∀ e ∈ es, (∃ name, e.1 = .str name) ∧ e.2.InJson

theorem EntriesInJson.map (json : EntriesInJson es) : (Value.map es).InJson :=
  .map (fun e member => (json e member).1) fun e member => (json e member).2

theorem inJson_of_isDocument (document : IsDocument v) : v.InJson := by
  induction document with
  | null => exact .null
  | bool b => exact .bool b
  | int short => exact .int short
  | float => exact .float _
  | str s => exact .str s
  | seq each ih => exact .seq ih
  | record distinct each ih =>
      refine EntriesInJson.map (List.forall_mem_map.mpr fun e member => ?_)
      exact ⟨⟨e.1, rfl⟩, ih e member⟩

/-- Everything that is read from a JSON text is a value of JSON. -/
theorem inJson_of_read {text : List Char} (loaded : read text = .ok v) : v.InJson :=
  inJson_of_isDocument (isDocument_of_read loaded)

/-! ## Writing -/

theorem exists_writeItems (each : ∀ v ∈ items, ∃ text, write v = .ok text) :
    ∃ texts, writeItems items = .ok texts := by
  induction items with
  | nil => exact ⟨[], rfl⟩
  | cons v rest ih =>
      obtain ⟨text, first⟩ := each v List.mem_cons_self
      obtain ⟨texts, others⟩ := ih fun w later => each w (List.mem_cons_of_mem _ later)
      exact ⟨text :: texts, by rw [writeItems, first, others]; rfl⟩

theorem exists_writeEntries (keys : ∀ e ∈ es, ∃ name, e.1 = .str name)
    (each : ∀ e ∈ es, ∃ text, write e.2 = .ok text) : ∃ texts, writeEntries es = .ok texts := by
  induction es with
  | nil => exact ⟨[], rfl⟩
  | cons e rest ih =>
      obtain ⟨k, v⟩ := e
      obtain ⟨name, rfl⟩ : ∃ name, k = .str name := keys (k, v) List.mem_cons_self
      obtain ⟨text, first⟩ := each _ List.mem_cons_self
      obtain ⟨texts, others⟩ := ih (fun e later => keys e (List.mem_cons_of_mem _ later))
        fun e later => each e (List.mem_cons_of_mem _ later)
      exact ⟨_, by rw [writeEntries, keyText, first, others]; rfl⟩

/-- Every value of JSON can be written. -/
theorem exists_write (json : v.InJson) : ∃ text, write v = .ok text := by
  induction json with
  | null => exact ⟨_, rfl⟩
  | bool b => exact ⟨_, rfl⟩
  | int short => exact ⟨_, if_pos short⟩
  | float x => exact ⟨_, rfl⟩
  | str s => exact ⟨_, rfl⟩
  | seq each ih =>
      obtain ⟨texts, written⟩ := exists_writeItems ih
      exact ⟨_, by rw [write, written]; rfl⟩
  | map keys values ih =>
      obtain ⟨texts, written⟩ := exists_writeEntries keys ih
      exact ⟨_, by rw [write, written]; rfl⟩

end Json

/-! ## Plain forms -/

namespace Definition

open Json

variable {v : Value} {items : List Value} {es : List (Value × Value)}

theorem exists_plainItems (each : ∀ v ∈ items, ∃ shown, plain v = .ok shown) :
    ∃ shown, plainItems items = .ok shown := by
  induction items with
  | nil => exact ⟨[], rfl⟩
  | cons v rest ih =>
      obtain ⟨shown, first⟩ := each v List.mem_cons_self
      obtain ⟨others, later⟩ := ih fun w later => each w (List.mem_cons_of_mem _ later)
      exact ⟨shown :: others, by rw [plainItems, first, later]; rfl⟩

theorem exists_plainEntries (keys : ∀ e ∈ es, ∃ name, e.1 = .str name)
    (each : ∀ e ∈ es, ∃ shown, plain e.2 = .ok shown) : ∃ shown, plainEntries es = .ok shown := by
  induction es with
  | nil => exact ⟨[], rfl⟩
  | cons e rest ih =>
      obtain ⟨k, v⟩ := e
      obtain ⟨name, rfl⟩ : ∃ name, k = .str name := keys (k, v) List.mem_cons_self
      obtain ⟨shown, first⟩ := each _ List.mem_cons_self
      obtain ⟨others, later⟩ := ih (fun e later => keys e (List.mem_cons_of_mem _ later))
        fun e later => each e (List.mem_cons_of_mem _ later)
      exact ⟨_, by rw [plainEntries, plainKey, first, later]; rfl⟩

/-- Every value of JSON has a plain form. -/
theorem exists_plain (json : v.InJson) : ∃ shown, plain v = .ok shown := by
  induction json with
  | null => exact ⟨_, rfl⟩
  | bool b => exact ⟨_, rfl⟩
  | int short => exact ⟨_, rfl⟩
  | float x => exact ⟨_, rfl⟩
  | str s => exact ⟨_, rfl⟩
  | seq each ih =>
      obtain ⟨shown, items⟩ := exists_plainItems ih
      exact ⟨_, by rw [plain, items]; rfl⟩
  | map keys values ih =>
      obtain ⟨shown, entries⟩ := exists_plainEntries keys ih
      exact ⟨_, by rw [plain, entries]; rfl⟩

theorem exists_plainFields {fields : Entries Value} (json : ∀ e ∈ fields, e.2.InJson) :
    ∃ shown, plainFields fields = .ok shown := by
  induction fields with
  | nil => exact ⟨[], rfl⟩
  | cons e rest ih =>
      obtain ⟨first, later⟩ := List.forall_mem_cons.mp json
      obtain ⟨shown, plain⟩ := exists_plain first
      obtain ⟨others, fields⟩ := ih later
      exact ⟨_, by rw [plainFields, plain, fields]; rfl⟩

end Definition

/-! ## Conditions -/

namespace Transition

open Json

variable {v : Value} {items : List Value} {es : List (Value × Value)}

theorem exists_operand (json : v.InJson) : ∃ text, operand v = .ok text := by
  cases json with
  | str s => exact ⟨s, rfl⟩
  | null => exact exists_write .null
  | bool b => exact exists_write (.bool b)
  | int short => exact exists_write (.int short)
  | float x => exact exists_write (.float x)
  | seq each => exact exists_write (.seq each)
  | map keys values => exact exists_write (.map keys values)

theorem exists_led (name : String) (json : v.InJson) : ∃ text, led (.str name) v = .ok text := by
  obtain ⟨text, found⟩ := exists_operand json
  exact ⟨name ++ " " ++ text, by unfold led; rw [found]; rfl⟩

theorem exists_related (sign : String) (json : v.InJson) : ∃ text, related sign v = .ok text := by
  have pair : ∃ operands, operandPair v = .ok operands := by
    unfold operandPair
    split
    · cases json with
      | seq each =>
          next a b =>
            obtain ⟨left, first⟩ := exists_operand (each a (by simp))
            obtain ⟨right, second⟩ := exists_operand (each b (by simp))
            exact ⟨some (left, right), by rw [first, second]; rfl⟩
    · exact ⟨none, rfl⟩
  obtain ⟨operands, found⟩ := pair
  exact ⟨_, by rw [related, found]; rfl⟩

/-- A value has a text as an expression, and texts as the parts of a connective. -/
structure Rendered (v : Value) : Prop where
  alone : ∀ nested, ∃ text, expression nested v = .ok text
  parts : ∃ texts, alternatives v = .ok texts

theorem exists_partsOf (each : ∀ v ∈ items, Rendered v) : ∃ texts, partsOf items = .ok texts := by
  induction items with
  | nil => exact ⟨[], rfl⟩
  | cons v rest ih =>
      obtain ⟨first, later⟩ := List.forall_mem_cons.mp each
      obtain ⟨text, part⟩ := first.alone true
      obtain ⟨texts, parts⟩ := ih later
      exact ⟨text :: texts, by rw [partsOf, part, parts]; rfl⟩

/-- The operators of a mapping have texts, each in front of its value. -/
theorem exists_operators (nested : Bool) (keys : ∀ e ∈ es, ∃ name, e.1 = .str name)
    (values : ∀ e ∈ es, e.2.InJson) (each : ∀ e ∈ es, Rendered e.2) :
    ∃ texts, operators nested es = .ok texts := by
  induction es with
  | nil => exact ⟨[], rfl⟩
  | cons e rest ih =>
      obtain ⟨key, v⟩ := e
      obtain ⟨⟨name, rfl : key = .str name⟩, names⟩ := List.forall_mem_cons.mp keys
      obtain ⟨json, values⟩ := List.forall_mem_cons.mp values
      obtain ⟨rendered, each⟩ := List.forall_mem_cons.mp each
      obtain ⟨texts, later⟩ := ih names values each
      rw [operators, later]
      cases Operator.ofKey (.str name) with
      | connective word =>
          obtain ⟨parts, found⟩ := rendered.parts
          exact ⟨_, by rw [found]; rfl⟩
      | negation =>
          obtain ⟨text, found⟩ := rendered.alone true
          exact ⟨_, by rw [found]; rfl⟩
      | relation sign =>
          obtain ⟨text, found⟩ := exists_related sign json
          exact ⟨_, by dsimp only; rw [found]; rfl⟩
      | leading =>
          obtain ⟨text, found⟩ := exists_led name json
          exact ⟨_, by dsimp only; rw [found]; rfl⟩

/-- Whatever JSON value stands where a condition should, it has a text. -/
theorem rendered_of_inJson (json : v.InJson) : Rendered v := by
  induction json with
  | seq each ih => exact ⟨fun _ => ⟨_, rfl⟩, exists_partsOf ih⟩
  | map keys values ih =>
      refine ⟨?_, ⟨[], rfl⟩⟩
      intro nested
      obtain ⟨texts, found⟩ := exists_operators nested keys values ih
      exact ⟨_, by rw [expression, found]; rfl⟩
  | _ => exact ⟨fun _ => ⟨_, rfl⟩, ⟨[], rfl⟩⟩

end Transition

end FlowDiagram
