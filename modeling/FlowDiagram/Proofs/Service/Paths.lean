import FlowDiagram.Service.Basic
import Mathlib.Data.List.TakeWhile
/-!
# Paths of the service

A path is cut at its slashes. The path of a stored version consists of the parts that it is put
together from, where the identifier of the flow may add parts of its own (`parts_versionPath`);
then there is nothing to be found at it. A number that is written in decimal is read back
(`integerIn?_toString`).

Nothing is asked for anew where a path does not end with a slash (`settled_eq`).
-/

namespace FlowDiagram.Service

open Document Number Text

/-! ## Cutting -/

theorem split_eq_splitOn (mark : Char) (cs : List Char) : split mark cs = cs.splitOn mark := by
  induction cs with
  | nil => rfl
  | cons c rest ih =>
      rw [split, ih, List.splitOn_cons_eq_if_modifyHead]
      obtain ⟨piece, others, pieces⟩ := List.exists_cons_of_ne_nil (List.splitOn_ne_nil mark rest)
      rw [pieces]
      simp

theorem split_append (mark : Char) (before after : List Char) :
    split mark (before ++ mark :: after) = split mark before ++ split mark after := by
  simp only [split_eq_splitOn]
  exact List.splitOn_append_cons_self _ _

theorem split_of_not_mem {mark : Char} {cs : List Char} (whole : mark ∉ cs) :
    split mark cs = [cs] := by
  rw [split_eq_splitOn]
  exact List.splitOn_eq_singleton whole

theorem not_mem_of_mem_split {mark : Char} {cs piece : List Char} (cut : piece ∈ split mark cs) :
    mark ∉ piece := by
  induction cs generalizing piece with
  | nil => simp_all [split]
  | cons c rest ih =>
      rw [split] at cut
      split at cut
      · obtain rfl | later := List.mem_cons.mp cut
        · exact List.not_mem_nil
        · exact ih later
      · next other =>
          obtain ⟨first, others, pieces⟩ : ∃ first others, split mark rest = first :: others :=
            List.exists_cons_of_ne_nil (by rw [split_eq_splitOn]; exact List.splitOn_ne_nil _ _)
          rw [pieces] at cut ih
          obtain rfl | later := List.mem_cons.mp cut
          · simp [Ne.symm other, ih List.mem_cons_self]
          · exact ih (List.mem_cons_of_mem _ later)

theorem one_lt_length_split {mark : Char} {cs : List Char} (marked : mark ∈ cs) :
    1 < (split mark cs).length := by
  obtain ⟨before, after, rfl⟩ := List.append_of_mem marked
  have first := List.length_pos_iff.mpr (List.splitOn_ne_nil mark before)
  have second := List.length_pos_iff.mpr (List.splitOn_ne_nil mark after)
  rw [split_append, List.length_append, split_eq_splitOn, split_eq_splitOn]
  omega

/-! ## Written numbers -/

section

variable {cs : List Char} {c : Char}

theorem trim_eq_self {drop : Char → Bool} (kept : ∀ c ∈ cs, drop c = false) : trim drop cs = cs := by
  have whole (l : List Char) (kept : ∀ c ∈ l, drop c = false) : l.dropWhile drop = l := by
    rw [List.dropWhile_eq_self_iff]
    intro filled
    simp [kept _ (List.getElem_mem filled)]
  rw [trim, whole cs kept, whole _ fun c member => kept c (List.mem_reverse.mp member),
    List.reverse_reverse]

/-- What is no digit does not occur among digits. -/
theorem ne_of_isDigit {d : Char} (digit : c.isDigit = true) (other : d.isDigit = false) : c ≠ d := by
  rintro rfl
  rw [digit] at other
  contradiction

theorem isWhite_of_isDigit (digit : c.isDigit = true) : isWhite c = false := by
  have low : 48 ≤ c.toNat ∧ c.toNat ≤ 57 := by
    simpa [Char.isDigit, UInt32.le_iff_toNat_le] using digit
  simp [isWhite]
  omega

/-- The digits of a number begin with a zero only if it is zero. -/
theorem head_toDigits (n : Nat) :
    n = 0 ∨ ∃ c rest, Nat.toDigits 10 n = c :: rest ∧ '1' ≤ c ∧ c ≤ '9' := by
  induction n using Nat.strongRecOn with
  | ind n ih =>
      by_cases small : n < 10
      · rw [Nat.toDigits_of_lt_base small]
        have each : ∀ n < 10, n = 0 ∨ '1' ≤ n.digitChar ∧ n.digitChar ≤ '9' := by decide
        obtain none | first := each n small
        · exact .inl none
        · exact .inr ⟨_, [], rfl, first⟩
      · rw [Nat.toDigits_of_base_le (by omega) (by omega)]
        obtain none | ⟨c, rest, digits, first⟩ := ih (n / 10) (by omega)
        · omega
        · exact .inr ⟨c, _, by rw [digits]; rfl, first⟩

theorem withoutLeadingZeros?_toDigits (n : Nat) :
    withoutLeadingZeros? (Nat.toDigits 10 n) = some (Nat.toDigits 10 n) := by
  obtain rfl | ⟨c, rest, digits, first⟩ := head_toDigits n
  · rfl
  · rw [digits, withoutLeadingZeros?, if_pos first]

theorem withoutZeroFraction_of_digits (digits : ∀ c ∈ cs, c.isDigit = true) :
    withoutZeroFraction cs = cs := by
  have whole : cs.dropWhile (· ≠ '.') = [] := by
    rw [List.dropWhile_eq_nil_iff]
    intro c member
    simpa using ne_of_isDigit (digits c member) rfl
  rw [withoutZeroFraction, whole]
  rfl

theorem withoutUnderscores_of_digits (digits : ∀ c ∈ cs, c.isDigit = true) :
    withoutUnderscores cs = cs := by
  have kept : cs.filter (· ≠ '_') = cs := by
    rw [List.filter_eq_self]
    intro c member
    simpa using ne_of_isDigit (digits c member) rfl
  rw [withoutUnderscores, kept]
  exact ite_self _

theorem splitSign_of_digits (digits : ∀ c ∈ cs, c.isDigit = true) : splitSign cs = (false, cs) := by
  unfold splitSign
  split
  · simp at digits
  · simp at digits
  · rfl

/-- The digits of a number, behind a minus sign or not. -/
def signed (negative : Bool) (n : Nat) : List Char :=
  if negative then '-' :: Nat.toDigits 10 n else Nat.toDigits 10 n

theorem isDigit_of_mem_digits {n : Nat} : ∀ c ∈ Nat.toDigits 10 n, c.isDigit = true :=
  fun _ => Nat.isDigit_of_mem_toDigits (by decide) (by decide)

theorem plainInteger?_signed (negative : Bool) (n : Nat) :
    plainInteger? (signed negative n) = some (if negative then -(n : Int) else n) := by
  have value : ofDigits (Nat.toDigits 10 n) = n :=
    Nat.ofDigitChars_eq_foldl.symm.trans Nat.ofDigitChars_ten_toDigits
  have accepted : ¬((Nat.toDigits 10 n).isEmpty = true ∨
      (!(Nat.toDigits 10 n).all Char.isDigit) = true ∨
        (Nat.toDigits 10 n).head? = some '0' ∧ 1 < (Nat.toDigits 10 n).length) := by
    rintro (empty | other | ⟨zero, long⟩)
    · exact Nat.toDigits_ne_nil (List.isEmpty_iff.mp empty)
    · simp [List.all_eq_true.mpr isDigit_of_mem_digits] at other
    · obtain rfl | ⟨c, rest, shown, first, -⟩ := head_toDigits n
      · simp at long
      · rw [shown] at zero
        cases zero
        contradiction
  cases negative with
  | true =>
      rw [signed, if_pos rfl, plainInteger?, if_neg accepted, value]
  | false =>
      have unsigned : ∀ ds, Nat.toDigits 10 n = '-' :: ds → False := by
        intro ds minus
        have digits := @isDigit_of_mem_digits n
        rw [minus] at digits
        simp at digits
      rw [signed, if_neg Bool.false_ne_true, plainInteger?, if_neg accepted, value]
      exact unsigned

theorem splitSign_signed (negative : Bool) (n : Nat) :
    splitSign (signed negative n) = (negative, Nat.toDigits 10 n) := by
  cases negative with
  | true => rfl
  | false => exact splitSign_of_digits isDigit_of_mem_digits

theorem exists_signed (n : Int) :
    ∃ negative m, (toString n).toList = signed negative m ∧
      n = if negative then -(m : Int) else m := by
  cases n with
  | ofNat m => exact ⟨false, m, Nat.toList_repr, rfl⟩
  | negSucc m =>
      refine ⟨true, m + 1, ?_, rfl⟩
      change ("-" ++ Nat.repr (m + 1)).toList = _
      rw [String.toList_append, Nat.toList_repr]
      rfl

/-- Neither blanks nor slashes stand in a number. -/
theorem signed_plain (negative : Bool) (n : Nat) :
    ∀ c ∈ signed negative n, isWhite c = false ∧ c ≠ '/' := by
  have digits : ∀ c ∈ Nat.toDigits 10 n, isWhite c = false ∧ c ≠ '/' := fun c member =>
    ⟨isWhite_of_isDigit (isDigit_of_mem_digits c member),
      ne_of_isDigit (isDigit_of_mem_digits c member) rfl⟩
  cases negative with
  | true => exact List.forall_mem_cons.mpr ⟨by decide, digits⟩
  | false => exact digits

theorem toString_ne_empty (n : Int) : toString n ≠ "" := by
  obtain ⟨negative, m, written, -⟩ := exists_signed n
  intro empty
  rw [empty] at written
  cases negative with
  | true => cases written
  | false => exact Nat.toDigits_ne_nil written.symm

/-- A number in decimal is read as itself. -/
theorem integerIn?_toString (n : Int) : integerIn? (toString n) = some n := by
  obtain ⟨negative, m, written, value⟩ := exists_signed n
  have whole : trim isWhite (signed negative m) = signed negative m :=
    trim_eq_self fun c member => (signed_plain negative m c member).1
  rw [integerIn?, written, whole, splitSign_signed]
  dsimp only
  rw [withoutLeadingZeros?_toDigits, Option.bind_some,
    withoutZeroFraction_of_digits isDigit_of_mem_digits,
    withoutUnderscores_of_digits isDigit_of_mem_digits, value]
  exact plainInteger?_signed negative m

end

/-! ## Targets -/

/-- The path of a version of a flow. -/
def versionPath (flow : String) (version : Int) : List Char :=
  ("/api/flows/" ++ flow ++ "/versions/" ++ toString version ++ "/graph").toList

theorem getLast?_versionPath (flow : String) (version : Int) :
    (versionPath flow version).getLast? = some 'h' := by
  have last : "/graph".toList.getLast? = some 'h' := rfl
  rw [versionPath, String.toList_append, List.getLast?_append, last]
  rfl

theorem parts_versionPath {t : Target} {flow : String} {version : Int}
    (path : t.path = versionPath flow version) :
    t.parts = ["", "api", "flows"] ++ (split '/' flow.toList).map String.ofList ++
      ["versions", toString version, "graph"] := by
  obtain ⟨negative, m, written, -⟩ := exists_signed version
  have number : split '/' (toString version).toList = [(toString version).toList] := by
    refine split_of_not_mem fun slash => ?_
    rw [written] at slash
    exact (signed_plain negative m _ slash).2 rfl
  have laid_out : versionPath flow version =
      [] ++ '/' :: ("api".toList ++ '/' :: ("flows".toList ++ '/' :: (flow.toList ++ '/' ::
        ("versions".toList ++ '/' :: ((toString version).toList ++ '/' :: "graph".toList))))) := by
    simp [versionPath]
  have no_break : ¬t.path.getLast? = some '\n' := by
    rw [path, getLast?_versionPath]
    decide
  rw [Target.parts, if_neg no_break, path, laid_out]
  simp only [split_append, number]
  simp [split]

/-- A path that does not end with a slash is not asked for anew. -/
theorem settled_eq {t : Target} (n : Nat) (last : t.path.getLast? ≠ some '/') : settled n t = t := by
  have kept : t.path.reverse.dropWhile (· = '/') = t.path.reverse := by
    rw [List.dropWhile_eq_self_iff]
    intro filled slash
    rw [← List.head?_reverse, List.head?_eq_getElem?, List.getElem?_eq_getElem filled] at last
    exact last (congrArg some (of_decide_eq_true slash))
  have same : t.trimmed = t := by rw [Target.trimmed, kept, List.reverse_reverse]
  cases n with
  | zero => rfl
  | succ n =>
      rw [settled, same]
      simp

theorem endpoints_of_long {parts : List String} (long : 7 < parts.length) : endpoints parts = [] := by
  unfold endpoints
  split
  all_goals first | rfl | (simp at long)

end FlowDiagram.Service
