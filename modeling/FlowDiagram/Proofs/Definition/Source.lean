import FlowDiagram.Definition.Source
import FlowDiagram.Proofs.Json.Documents
/-!
# Which texts define a flow

A text defines the flow that its document describes, or the flow without nodes when it breaks the
grammar or when its document describes none. The exception are texts that are reported
(`Reports`): a scalar in them is not what its kind announces, or an integer in them has too many
digits. Nothing else is reported (`ofSource_ok_iff`), and a text that is read as JSON is only
reported for its digits.

This is said of texts that are covered (`Covered`). Such a text holds nothing that no value is, and
its collections are nested less deep than `deepest`. Nothing here limits how deep a text is read; a
program may have such a limit, and what is said is meant for documents within it.
-/

namespace FlowDiagram

open Document

namespace Document.Value

mutual

/-- How deep collections are nested in a value. -/
def depth : Value → Nat
  | .pair k v => max (depth k) (depth v) + 1
  | .seq items => itemsDepth items + 1
  | .map entries => entriesDepth entries + 1
  | _ => 0
termination_by structural v => v

def itemsDepth : List Value → Nat
  | [] => 0
  | v :: rest => max (depth v) (itemsDepth rest)
termination_by structural vs => vs

def entriesDepth : List (Value × Value) → Nat
  | [] => 0
  | (k, v) :: rest => max (max (depth k) (depth v)) (entriesDepth rest)
termination_by structural es => es

end

end Document.Value

namespace Definition

/-! ## Texts that are covered -/

/-- Nothing is said of documents whose collections are nested as deep as this. -/
def deepest : Nat := 255

/-- The document of a text, which is not nested too deep. -/
structure HasDocument (text : String) (language : Option Language) (v : Value) : Prop where
  loaded : load text language = .ok v
  shallow : v.depth < deepest

/-- A text with a document, or one that is refused for something else than what no value is. -/
inductive Covered (text : String) (language : Option Language) : Prop where
  | document {v : Value} (has : HasDocument text language v)
  | refused {fault : LoadFault} (lost : load text language = .error fault)
      (own : fault.foreign? = none)

/-- The document in a text, if it has one. -/
def document? (text : String) (language : Option Language) : Option Value :=
  if isBlankText text then none else (load text language).toOption

/-- The flow that a text describes. -/
def describedFlow (text : String) (language : Option Language) : Flow :=
  ((document? text language).bind Flow.ofValue?).getD .empty

/-- A text is read as YAML: this was chosen, or nothing was and the text is no JSON. -/
def ReadAsYaml (text : String) (language : Option Language) : Prop :=
  language = some .yaml ∨
    language = none ∧ ∃ offset, Json.read text.toList = .error (.malformed offset)

/-- The reader of a text stops in it, though the text does not break the grammar. -/
inductive Reports (text : String) (language : Option Language) : LoadFault → Prop where
  | json {fault : Json.Fault Nat} (filled : isBlankText text = false)
      (asJson : language ≠ some .yaml) (read : Json.read text.toList = .error fault)
      (grammatical : ∀ offset, fault ≠ .malformed offset) : Reports text language (.json fault)
  | yaml {fault : Yaml.Fault} (filled : isBlankText text = false)
      (asYaml : ReadAsYaml text language) (read : Yaml.read text.toList = .error fault)
      (grammatical : fault ≠ .malformed) : Reports text language (.yaml fault)

/-- So many digits stand in a row, and they are too many. -/
def DigitsInRow (text : String) (digits : Nat) : Prop :=
  ∃ ds, ds <:+: text.toList ∧ (∀ c ∈ ds, c.isDigit = true) ∧ Number.mostDigits < ds.length ∧
    ds.length = digits

section

variable {text : String} {language : Option Language} {fault : LoadFault} {v : Value}

theorem Covered.foreign?_eq_none (covered : Covered text language)
    (lost : load text language = .error fault) : fault.foreign? = none := by
  cases covered with
  | document has =>
      rw [has.loaded] at lost
      contradiction
  | refused refused own =>
      obtain rfl := Except.error.inj (refused.symm.trans lost)
      exact own

/-! ## Reading -/

theorem load_of_read (json : language ≠ some .yaml) (read : Json.read text.toList = .ok v) :
    load text language = .ok v := by
  cases language with
  | none => rw [load, read]
  | some chosen =>
      cases chosen with
      | json => rw [load, read]; rfl
      | yaml => contradiction

theorem load_of_stopped {stop : Json.Fault Nat} (json : language ≠ some .yaml)
    (read : Json.read text.toList = .error stop)
    (grammatical : ∀ offset, stop ≠ .malformed offset) :
    load text language = .error (.json stop) := by
  cases language with
  | none =>
      rw [load, read]
      cases stop with
      | malformed offset => exact absurd rfl (grammatical offset)
      | _ => rfl
  | some chosen =>
      cases chosen with
      | json => rw [load, read]; rfl
      | yaml => contradiction

theorem load_of_readAsYaml (yaml : ReadAsYaml text language) :
    load text language = (Yaml.read text.toList).mapError .yaml := by
  obtain rfl | ⟨rfl, offset, read⟩ := yaml
  · rfl
  · rw [load, read]

/-- A text is read as one of the languages, or it is malformed JSON where JSON was chosen. -/
theorem load_cases (text : String) (language : Option Language) :
    ReadAsYaml text language ∨ language ≠ some .yaml ∧
      ((∃ v, Json.read text.toList = .ok v) ∨
        (∃ stop, Json.read text.toList = .error stop ∧ ∀ offset, stop ≠ .malformed offset) ∨
        ∃ offset, load text language = .error (.json (.malformed offset))) := by
  cases read : Json.read text.toList with
  | ok v =>
      by_cases yaml : language = some .yaml
      · exact .inl (.inl yaml)
      · exact .inr ⟨yaml, .inl ⟨v, rfl⟩⟩
  | error stop =>
      by_cases malformed : ∃ offset, stop = .malformed offset
      · obtain ⟨offset, rfl⟩ := malformed
        cases language with
        | none => exact .inl (.inr ⟨rfl, offset, read⟩)
        | some chosen =>
            cases chosen with
            | json => exact .inr ⟨nofun, .inr (.inr ⟨offset, by rw [load, read]; rfl⟩)⟩
            | yaml => exact .inl (.inl rfl)
      · by_cases yaml : language = some .yaml
        · exact .inl (.inl yaml)
        · refine .inr ⟨yaml, .inr (.inl ⟨stop, rfl, ?_⟩)⟩
          rintro offset rfl
          exact malformed ⟨offset, rfl⟩

theorem reports_iff : Reports text language fault ↔
    isBlankText text = false ∧ load text language = .error fault ∧ fault.isMalformed = false := by
  constructor
  · rintro (⟨filled, asJson, read, grammatical⟩ | ⟨filled, asYaml, read, grammatical⟩)
    · refine ⟨filled, load_of_stopped asJson read grammatical, ?_⟩
      next stop =>
        cases stop with
        | malformed offset => exact absurd rfl (grammatical offset)
        | _ => rfl
    · refine ⟨filled, by rw [load_of_readAsYaml asYaml, read]; rfl, ?_⟩
      next stop =>
        cases stop with
        | malformed => contradiction
        | _ => rfl
  · rintro ⟨filled, lost, own⟩
    obtain yaml | ⟨json, ⟨v, read⟩ | ⟨stop, read, grammatical⟩ | ⟨offset, malformed⟩⟩ :=
      load_cases text language
    · rw [load_of_readAsYaml yaml] at lost
      cases read : Yaml.read text.toList with
      | ok v =>
          rw [read] at lost
          contradiction
      | error stop =>
          rw [read] at lost
          cases lost
          refine .yaml filled yaml read ?_
          rintro rfl
          contradiction
    · rw [load_of_read json read] at lost
      contradiction
    · rw [load_of_stopped json read grammatical] at lost
      cases lost
      exact .json filled json read grammatical
    · rw [malformed] at lost
      cases lost
      contradiction

/-! ## Flows -/

theorem parse_of_blank (blank : isBlankText text = true) :
    Flow.parse text language = .ok (describedFlow text language) := by
  simp [Flow.parse, describedFlow, document?, blank]

theorem parse_of_document (filled : isBlankText text = false)
    (loaded : load text language = .ok v) :
    Flow.parse text language = .ok (describedFlow text language) := by
  simp [Flow.parse, describedFlow, document?, filled, loaded, Except.toOption]

/-- A text that breaks the grammar describes the flow without nodes. -/
theorem parse_of_malformed (filled : isBlankText text = false)
    (lost : load text language = .error fault) (malformed : fault.isMalformed = true) :
    Flow.parse text language = .ok (describedFlow text language) := by
  simp [Flow.parse, describedFlow, document?, filled, lost, malformed, Except.toOption]

theorem parse_of_reports (reports : Reports text language fault) :
    Flow.parse text language = .error fault := by
  obtain ⟨filled, lost, own⟩ := reports_iff.mp reports
  simp [Flow.parse, filled, lost, own]

/-- A text defines the flow that it describes, or it is reported. -/
theorem parse_cases (text : String) (language : Option Language) :
    Flow.parse text language = .ok (describedFlow text language) ∨
      ∃ fault, Reports text language fault := by
  cases filled : isBlankText text with
  | true => exact .inl (parse_of_blank filled)
  | false =>
      cases loaded : load text language with
      | ok v => exact .inl (parse_of_document filled loaded)
      | error fault =>
          cases malformed : fault.isMalformed with
          | true => exact .inl (parse_of_malformed filled loaded malformed)
          | false => exact .inr ⟨fault, reports_iff.mpr ⟨filled, loaded, malformed⟩⟩

theorem parse_of_read (json : language ≠ some .yaml) (read : Json.read text.toList = .ok v) :
    Flow.parse text language = .ok ((Flow.ofValue? v).getD .empty) := by
  rw [Flow.parse, Json.filled_of_read read, load_of_read json read]
  rfl

theorem parse_of_described {flow : Flow} (json : language ≠ some .yaml)
    (read : Json.read text.toList = .ok v) (described : Flow.ofValue? v = some flow) :
    Flow.parse text language = .ok flow := by
  rw [parse_of_read json read, described, Option.getD_some]

/-- Too many digits are reported. -/
theorem parse_of_longInteger {digits : Nat} (json : language ≠ some .yaml)
    (read : Json.read text.toList = .error (.longInteger digits)) :
    Flow.parse text language = .error (.json (.longInteger digits)) :=
  parse_of_reports (.json (Json.filled_of_longInteger read) json read nofun)

theorem ofSource_eq_parse (text : String) {language : Value} {chosen : Option Language}
    (known : chosenLanguage language = .ok chosen) :
    Flow.ofSource (.str text) language = (Flow.parse text chosen).mapError .unread := by
  rw [Flow.ofSource, known]
  rfl

/-- Too many digits in a row are the only thing for which the reader of JSON reports a covered
text. -/
theorem reports_cases (covered : Covered text language) (reports : Reports text language fault) :
    ReadAsYaml text language ∨ ∃ digits, fault = .json (.longInteger digits) ∧
      Json.read text.toList = .error (.longInteger digits) ∧ DigitsInRow text digits := by
  obtain ⟨-, lost, -⟩ := reports_iff.mp reports
  have own := covered.foreign?_eq_none lost
  cases reports with
  | yaml filled asYaml read grammatical => exact .inl asYaml
  | json filled asJson read grammatical =>
      refine .inr ?_
      cases Json.stops_of_read read with
      | malformed offset => exact absurd rfl (grammatical offset)
      | longInteger stands digits long => exact ⟨_, rfl, read, _, stands, digits, long, rfl⟩
      | half stands unit half => contradiction

/-- Where no integer has too many digits, a covered text that is not read as YAML defines the flow
that it describes. -/
theorem parse_of_short (covered : Covered text language) (asJson : ¬ReadAsYaml text language)
    (short : ∀ digits, Json.read text.toList ≠ .error (.longInteger digits)) :
    Flow.parse text language = .ok (describedFlow text language) := by
  obtain parsed | ⟨fault, reports⟩ := parse_cases text language
  · exact parsed
  · obtain yaml | ⟨digits, -, read, -⟩ := reports_cases covered reports
    · exact absurd yaml asJson
    · exact absurd read (short digits)

end

/-- In a known language, or without a choice, a covered text defines the flow that it describes
exactly when it is not reported, and nothing else is ever reported. What is not read as YAML is
only reported for too many digits in a row. -/
theorem ofSource_ok_iff (text : String) {language : Value} {chosen : Option Language}
    (known : chosenLanguage language = .ok chosen) (covered : Covered text chosen) :
    (Flow.ofSource (.str text) language = .ok (describedFlow text chosen) ↔
        ∀ fault, ¬Reports text chosen fault) ∧
      (∀ fault, Flow.ofSource (.str text) language = .error fault ↔
        ∃ unread, fault = .unread unread ∧ Reports text chosen unread) ∧
      ∀ fault, Reports text chosen fault → ReadAsYaml text chosen ∨
        ∃ digits, fault = .json (.longInteger digits) ∧ DigitsInRow text digits := by
  rw [ofSource_eq_parse text known]
  refine ⟨?_, ?_, ?_⟩
  · obtain parsed | ⟨fault, reports⟩ := parse_cases text chosen
    · have sound (fault : LoadFault) : ¬Reports text chosen fault := by
        intro reports
        rw [parse_of_reports reports] at parsed
        contradiction
      simp [parsed, sound]
    · rw [parse_of_reports reports]
      exact ⟨nofun, fun sound => absurd reports (sound fault)⟩
  · intro fault
    constructor
    · intro failed
      obtain parsed | ⟨unread, reports⟩ := parse_cases text chosen
      · rw [parsed] at failed
        contradiction
      · rw [parse_of_reports reports] at failed
        exact ⟨unread, (Except.error.inj failed).symm, reports⟩
    · rintro ⟨unread, rfl, reports⟩
      rw [parse_of_reports reports]
      rfl
  · intro fault reports
    obtain yaml | ⟨digits, same, -, row⟩ := reports_cases covered reports
    · exact .inl yaml
    · exact .inr ⟨digits, same, row⟩

/-- A text with one node. -/
def oneNode : String := "\x7b\"nodes\": \x7b\"a\": \x7b\x7d\x7d\x7d"

theorem read_oneNode :
    Json.read oneNode.toList = .ok (.map [(.str "nodes", .map [(.str "a", .map [])])]) := by
  cbv

/-- A text that is JSON defines its flow without a choice of the language. -/
theorem ofSource_ok_iff_oneNode :
    Covered oneNode none ∧
      Flow.ofSource (.str oneNode) .null = .ok (describedFlow oneNode none) ∧
      describedFlow oneNode none = { nodes := .given [("a", {})] } := by
  have loaded : load oneNode none = _ := load_of_read nofun read_oneNode
  have covered : Covered oneNode none := .document ⟨loaded, by decide⟩
  have filled : isBlankText oneNode = false := by decide +kernel
  have known : chosenLanguage .null = .ok none := rfl
  obtain ⟨defined, -, -⟩ := ofSource_ok_iff oneNode known covered
  refine ⟨covered, defined.mpr ?_, ?_⟩
  · intro fault reports
    rw [(reports_iff.mp reports).2.1] at loaded
    contradiction
  · rw [describedFlow, document?, filled, loaded]
    rfl

/-- A text with a month that the calendar does not have. -/
def thirteenthMonth : String := "start: 2024-13-01"

theorem reports_thirteenthMonth :
    Reports thirteenthMonth (some .yaml) (.yaml (.calendar .month)) := by
  refine .yaml (by decide +kernel) (.inl rfl) ?_ (by decide)
  exact faultOf?_eq_some_iff.mp (by decide +kernel)

/-- The text defines no flow, not even the one without nodes. -/
theorem ofSource_thirteenthMonth :
    Flow.ofSource (.str thirteenthMonth) (.str "yaml") =
      .error (.unread (.yaml (.calendar .month))) := by
  have known : chosenLanguage (.str "yaml") = .ok (some .yaml) := rfl
  rw [ofSource_eq_parse thirteenthMonth known, parse_of_reports reports_thirteenthMonth]
  rfl

end Definition

end FlowDiagram
