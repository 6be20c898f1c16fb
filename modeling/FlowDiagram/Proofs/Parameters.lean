import FlowDiagram.Parameters
import FlowDiagram.Proofs.Json.Texts
import FlowDiagram.Proofs.Lists
/-!
# Which parameters a text has

A reference is the marker with a name behind it that goes as far as it can (`RefersAt`). The search
for references goes on behind each one that it finds. No other one begins in what it passes over,
for a marker begins with a character that stands nowhere else in a reference
(`references_cons`). So the names that are found are those at all places of the text, in order.

`ofText_exact` says this of the parameters of a text. They are each listed once, a line behind a
text adds its new ones at the end, and the document that is made of them is read back.
-/

namespace FlowDiagram.Parameters

open Document Json

/-! ## References -/

/-- A reference to a name stands at a place of a text. -/
def RefersAt (name : String) (cs : List Char) (place : Nat) : Prop :=
  ∃ rest, cs.drop place = marker ++ (name.toList ++ rest) ∧ name ≠ "" ∧
    (∀ c ∈ name.toList, isNameChar c = true) ∧ ∀ c ∈ rest.head?, isNameChar c = false

section

variable {cs rest tail : List Char} {c : Char} {name : String} {ms : List Char}

theorem behind?_eq_some_iff : behind? ms cs = some rest ↔ cs = ms ++ rest := by
  induction ms generalizing cs with
  | nil => simp [behind?]
  | cons m ms ih =>
      cases cs with
      | nil => simp [behind?]
      | cons c cs =>
          rw [behind?]
          by_cases same : m = c
          · simp [same, ih]
          · simp [same, Ne.symm same]

theorem takeWhile_name (allowed : ∀ c ∈ ms, isNameChar c = true)
    (ended : ∀ c ∈ rest.head?, isNameChar c = false) :
    (ms ++ rest).takeWhile isNameChar = ms := by
  rw [List.takeWhile_append_of_pos allowed]
  cases rest with
  | nil => simp
  | cons c rest => simp [ended c rfl]

/-- The reference at the beginning of a text is the one that stands there. -/
theorem reference?_eq_some_iff : reference? cs = some name ↔ RefersAt name cs 0 := by
  rw [reference?, Option.bind_eq_some_iff]
  constructor
  · rintro ⟨behind, begins, found⟩
    obtain rfl := behind?_eq_some_iff.mp begins
    dsimp only at found
    split at found
    · contradiction
    · next filled =>
        obtain rfl := Option.some.inj found
        refine ⟨behind.dropWhile isNameChar, ?_, ?_, ?_, ?_⟩
        · rw [String.toList_ofList, List.takeWhile_append_dropWhile, List.drop_zero]
        · simpa using filled
        · rw [String.toList_ofList]
          exact fun c member => List.mem_takeWhile_imp member
        · intro c first
          have stops := List.head?_dropWhile_not isNameChar behind
          rwa [Option.mem_def.mp first] at stops
  · rintro ⟨rest, begins, filled, allowed, ended⟩
    refine ⟨_, behind?_eq_some_iff.mpr begins, ?_⟩
    dsimp only
    rw [takeWhile_name allowed ended, String.ofList_toList, if_neg (by simpa using filled)]

/-- At one place stands one reference. -/
theorem RefersAt.unique {other : String} {place : Nat} (first : RefersAt name cs place)
    (second : RefersAt other cs place) : name = other := by
  have found : reference? (cs.drop place) = some name := reference?_eq_some_iff.mpr first
  rw [reference?_eq_some_iff.mpr second] at found
  exact (Option.some.inj found).symm

/-! ## The search -/

theorem marker_eq : marker = '$' :: marker.tail := rfl

theorem reference?_of_ne (other : c ≠ '$') : reference? (c :: cs) = none := by
  have missing : behind? marker (c :: cs) = none := by
    rw [marker_eq]
    exact if_neg other.symm
  rw [reference?, missing]
  rfl

/-- What is passed over does not matter if no marker can begin there. -/
theorem referencesFrom_eq {passed : Nat} (unmarked : ∀ c ∈ cs.take passed, c ≠ '$') :
    referencesFrom passed cs = references cs := by
  induction passed generalizing cs with
  | zero => rfl
  | succ passed ih =>
      cases cs with
      | nil => rfl
      | cons c cs =>
          obtain ⟨first, others⟩ := List.forall_mem_cons.mp unmarked
          rw [references, referencesFrom, referencesFrom, reference?_of_ne first]
          exact ih others

/-- No reference begins inside another one, so none is passed over. -/
theorem references_cons (c : Char) (cs : List Char) :
    references (c :: cs) = (reference? (c :: cs)).toList ++ references cs := by
  rw [references, referencesFrom]
  cases found : reference? (c :: cs) with
  | none => rfl
  | some name =>
      obtain ⟨rest, begins, -, allowed, -⟩ := reference?_eq_some_iff.mp found
      refine congrArg (name :: ·) (referencesFrom_eq fun d inside => ?_)
      have behind : cs = (marker.tail ++ name.toList) ++ rest := by
        rw [List.append_assoc]
        exact congrArg List.tail begins
      have length : marker.length + name.length - 1 = (marker.tail ++ name.toList).length := by
        rw [List.length_append, String.length_toList, List.length_tail]
        exact Nat.sub_add_comm (by decide)
      rw [behind, length, List.take_left] at inside
      have unmarked : '$' ∉ marker.tail := by decide
      rintro rfl
      obtain ahead | chosen := List.mem_append.mp inside
      · exact unmarked ahead
      · exact absurd (allowed '$' chosen) (by decide)

theorem mem_references_iff : name ∈ references cs ↔ ∃ place, RefersAt name cs place := by
  induction cs with
  | nil =>
      refine iff_of_false List.not_mem_nil ?_
      rintro ⟨place, rest, begins, -⟩
      rw [List.drop_nil, marker_eq] at begins
      contradiction
  | cons c cs ih =>
      rw [references_cons, List.mem_append, Option.mem_toList, reference?_eq_some_iff, ih]
      constructor
      · rintro (here | ⟨place, later⟩)
        · exact ⟨0, here⟩
        · exact ⟨place + 1, later⟩
      · rintro ⟨_ | place, stands⟩
        · exact .inl stands
        · exact .inr ⟨place, stands⟩

/-! ## The order of parameters -/

/-- A name is referred to before another one is for the first time. -/
def Precedes (cs : List Char) (name other : String) : Prop :=
  ∃ place, RefersAt name cs place ∧ ∀ later, RefersAt other cs later → place < later

/-- A name that does not stand first keeps its order. -/
theorem Precedes.cons {other : String} (before : Precedes cs name other)
    (behind : ¬RefersAt other (c :: cs) 0) : Precedes (c :: cs) name other := by
  obtain ⟨place, stands, first⟩ := before
  refine ⟨place + 1, stands, ?_⟩
  rintro (_ | later) again
  · exact absurd again behind
  · exact Nat.succ_lt_succ (first later again)

theorem pairwise_precedes (cs : List Char) :
    (references cs).eraseDups.Pairwise (Precedes cs) := by
  induction cs with
  | nil => exact .nil
  | cons c cs ih =>
      rw [references_cons]
      cases found : reference? (c :: cs) with
      | none =>
          refine ih.imp fun before => before.cons fun here => ?_
          rw [reference?_eq_some_iff.mpr here] at found
          contradiction
      | some name =>
          have here := reference?_eq_some_iff.mp found
          have behind {other : String} (another : other ≠ name) : ¬RefersAt other (c :: cs) 0 :=
            fun again => another (again.unique here)
          rw [Option.toList_some, List.singleton_append, List.eraseDups_cons, eraseDups_filter]
          refine .cons ?_ ?_
          · intro other member
            have another : other ≠ name := by simpa using (List.mem_filter.mp member).2
            refine ⟨0, here, ?_⟩
            rintro (_ | later) stands
            · exact absurd stands (behind another)
            · exact Nat.succ_pos later
          · refine (ih.filter _).imp_of_mem fun _ member before => before.cons (behind ?_)
            simpa using (List.mem_filter.mp member).2

/-! ## Texts behind each other -/

theorem behind?_append {line : Char} (absent : line ∉ ms) :
    behind? ms (cs ++ line :: tail) = (behind? ms cs).map (· ++ line :: tail) := by
  induction ms generalizing cs with
  | nil => rfl
  | cons m ms ih =>
      obtain ⟨other, absent⟩ := not_or.mp (List.mem_cons.not.mp absent)
      cases cs with
      | nil => exact if_neg (Ne.symm other)
      | cons c cs =>
          rw [List.cons_append, behind?, behind?]
          split
          · exact ih absent
          · rfl

/-- A reference ends with its line. -/
theorem reference?_append : reference? (cs ++ '\n' :: tail) = reference? cs := by
  rw [reference?, reference?, behind?_append (by decide)]
  cases behind? marker cs with
  | none => rfl
  | some rest =>
      have ended : (rest ++ '\n' :: tail).takeWhile isNameChar = rest.takeWhile isNameChar := by
        rw [List.takeWhile_append]
        split
        · next whole =>
            have all := (List.takeWhile_prefix isNameChar).eq_of_length whole
            rw [List.takeWhile_cons_of_neg (by decide), List.append_nil, all]
        · rfl
      simp only [Option.map_some, Option.bind_some, ended]

theorem references_append :
    references (cs ++ '\n' :: tail) = references cs ++ references tail := by
  induction cs with
  | nil => rw [List.nil_append, references_cons, reference?_of_ne (by decide)]; rfl
  | cons c cs ih =>
      have same : reference? (c :: cs ++ '\n' :: tail) = reference? (c :: cs) := reference?_append
      rw [List.cons_append] at same ⊢
      rw [references_cons, references_cons, same, ih, List.append_assoc]

end

/-! ## The document of parameters -/

/-- Each entry stands on a line of its own. -/
theorem toJson_eq {names : List String} (some : names ≠ []) :
    toJson names =
      Blanks.mapping { opening := "\n", between := "\n", indent := "  ", closing := "\n" }
        (names.map (·, "")) := by
  have empty : quoted "" = "\"\"" := rfl
  cases names with
  | nil => contradiction
  | cons name rest =>
      simp [toJson, Blanks.mapping, Blanks.entries, member, empty, Function.comp_def,
        String.append_assoc]

/-- The document of different parameters holds them in order, without values. -/
theorem read_toJson {names : List String} (distinct : names.Nodup) :
    Json.read (toJson names).toList = .ok (.record (names.map fun name => (name, .str ""))) := by
  by_cases some : names = []
  · subst some
    rfl
  · rw [toJson_eq some, Blanks.read_mapping]
    · rw [textEntries, List.map_map, Value.record, List.map_map]
      rfl
    · rw [List.map_map]
      exact (List.map_id names).symm ▸ distinct

/-! ## The parameters of a text -/

/-- The parameters of a text are the names that it refers to, each once and in the order in which it
first refers to them. Another line adds those of its parameters that are new. The document of the
parameters has them in the same order, without values. -/
theorem ofText_exact (text : String) :
    (∀ name, name ∈ ofText text ↔ ∃ place, RefersAt name text.toList place) ∧
      (ofText text).Nodup ∧ (ofText text).Pairwise (Precedes text.toList) ∧
      (∀ line, ofText (text ++ "\n" ++ line) =
        ofText text ++ (ofText line).filter (· ∉ ofText text)) ∧
      Json.read (toJson (ofText text)).toList =
        .ok (.record ((ofText text).map fun name => (name, .str ""))) := by
  have distinct : (ofText text).Nodup := nodup_eraseDups _
  refine ⟨fun name => ?_, distinct, pairwise_precedes _, fun line => ?_, read_toJson distinct⟩
  · rw [ofText, List.mem_eraseDups, mem_references_iff]
  · have split : (text ++ "\n" ++ line).toList = text.toList ++ '\n' :: line.toList := by simp
    rw [ofText, split, references_append, List.eraseDups_append]
    have new : (references line.toList).removeAll (references text.toList) =
        (references line.toList).filter (· ∉ ofText text) := by
      simp [List.removeAll, ofText, List.mem_eraseDups]
    rw [new, eraseDups_filter]
    rfl

/-- References may stand right behind each other, and one without a name is none. -/
example : ofText "$params.a$params.b_1 $params. $params.$params.a.c" = ["a", "b_1"] := by decide

end FlowDiagram.Parameters
