import FlowDiagram.Text.Quoted
import FlowDiagram.Text.Utf8
/-!
# Codes of characters

Hexadecimal digits denote what they were written for, and a character is decoded from the bytes
that encode it, whatever stands behind them (`decodeOne_encoded`). So a text is decoded from its
bytes, also by the decoder that passes over broken ones (`decodeLossy_encoded`).
-/

namespace FlowDiagram.Text

theorem hexValue?_hexDigit (n : Nat) : Number.hexValue? (hexDigit n) = some (n % 16) := by
  have each : ∀ m < 16, Number.hexValue? m.digitChar = some m := by decide
  exact each _ (Nat.mod_lt n (by decide))

/-- A blank, or a visible character from the first 128. -/
def IsPlain (c : Char) : Prop := ' ' ≤ c ∧ c ≤ '~'

instance : DecidablePred IsPlain := fun _ => instDecidableAnd

/-- For a given text this is tried out. -/
theorem forall_isPlain {cs : List Char} (each : cs.all (fun c => decide (IsPlain c)) = true) :
    ∀ c ∈ cs, IsPlain c := by
  simpa using each

theorem isPlain_hexDigit (n : Nat) : IsPlain (hexDigit n) := by
  have each : ∀ m < 16, IsPlain m.digitChar := by decide
  exact each _ (Nat.mod_lt n (by decide))

theorem isPlain_hex (width n : Nat) : ∀ c ∈ hex width n, IsPlain c := by
  induction width generalizing n with
  | zero => exact fun _ member => absurd member List.not_mem_nil
  | succ width ih =>
      rw [hex, List.forall_mem_append]
      exact ⟨ih _, List.forall_mem_singleton.mpr (isPlain_hexDigit n)⟩

/-- The number of a character. No character is half of another one. -/
theorem toNat_cases (c : Char) : c.toNat < 0xD800 ∨ 0xE000 ≤ c.toNat ∧ c.toNat < 0x110000 := by
  obtain small | ⟨past, bounded⟩ := c.valid
  · exact .inl small
  · exact .inr ⟨past, bounded⟩

/-! ## Bytes -/

theorem toList_toByteArray (bs : List UInt8) : bs.toByteArray.toList = bs := by
  have behind (left i : Nat) (seen : List UInt8) (all : bs.length = i + left) :
      ByteArray.toList.loop bs.toByteArray i seen = seen.reverse ++ bs.drop i := by
    induction left generalizing i seen with
    | zero =>
        rw [ByteArray.toList.loop, if_neg (by simp [all]), List.drop_eq_nil_of_le (by omega),
          List.append_nil]
    | succ left ih =>
        have inside : i < bs.length := by omega
        have here : bs.toByteArray.get! i = bs[i] := by
          simp [ByteArray.get!, inside]
        rw [ByteArray.toList.loop, if_pos (by simp [inside]), ih (i + 1) _ (by omega), here,
          List.drop_eq_getElem_cons inside, List.reverse_cons, List.append_assoc]
        rfl
  exact behind bs.length 0 [] (by omega)

theorem toList_toUTF8 (s : String) : s.toUTF8.toList = s.toList.flatMap String.utf8EncodeChar := by
  have bytes : s.toUTF8 = s.toList.utf8Encode := by
    rw [← String.toByteArray_ofList, String.ofList_toList]
    rfl
  rw [bytes, List.utf8Encode, toList_toByteArray]

/-- A byte behind the first one carries six bits. -/
theorem continuation {m : Nat} (small : m < 64) :
    isContinuation (UInt8.ofNat (m + 128)) = true ∧ payload (UInt8.ofNat (m + 128)) = m := by
  have each : ∀ m < 64, isContinuation (UInt8.ofNat (m + 128)) = true ∧
      payload (UInt8.ofNat (m + 128)) = m := by decide
  exact each m small

section

variable {n : Nat} (rest : List UInt8)

/-! One to four bytes are told apart by the first one. -/

theorem decodeOne_one (least : n ≤ 127) :
    decodeOne (UInt8.ofNat n :: rest) = some (Char.ofNat n, rest) := by
  have lead : UInt8.ofNat n < 0x80 := by
    simp [UInt8.lt_iff_toNat_lt]
    omega
  have code : (UInt8.ofNat n).toNat = n := by
    simp
    omega
  rw [decodeOne.eq_def]
  simp only [lead, code, if_true]

theorem decodeOne_two (more : 127 < n) (least : n ≤ 2047) :
    decodeOne (UInt8.ofNat (n / 64 % 32 + 192) :: UInt8.ofNat (n % 64 + 128) :: rest) =
      some (Char.ofNat n, rest) := by
  obtain ⟨last, bits⟩ := continuation (Nat.mod_lt n (by decide) : n % 64 < 64)
  have lead : ¬UInt8.ofNat (n / 64 % 32 + 192) < 0x80 ∧
      0xC2 ≤ UInt8.ofNat (n / 64 % 32 + 192) ∧ UInt8.ofNat (n / 64 % 32 + 192) < 0xE0 := by
    simp [UInt8.lt_iff_toNat_lt, UInt8.le_iff_toNat_le]
    omega
  have code : (UInt8.ofNat (n / 64 % 32 + 192)).toNat % 0x20 * 0x40 + n % 64 = n := by
    simp
    omega
  rw [decodeOne.eq_def]
  simp only [lead, last, bits, code, if_true, if_false, decide_true, Bool.and_self]

theorem decodeOne_three (more : 2047 < n) (least : n ≤ 65535) (whole : n < 0xD800 ∨ 0xE000 ≤ n) :
    decodeOne (UInt8.ofNat (n / 4096 % 16 + 224) :: UInt8.ofNat (n / 64 % 64 + 128) ::
      UInt8.ofNat (n % 64 + 128) :: rest) = some (Char.ofNat n, rest) := by
  obtain ⟨last, bits⟩ := continuation (Nat.mod_lt n (by decide) : n % 64 < 64)
  obtain ⟨middle, bits'⟩ := continuation (Nat.mod_lt (n / 64) (by decide) : n / 64 % 64 < 64)
  have lead : ¬UInt8.ofNat (n / 4096 % 16 + 224) < 0x80 ∧
      ¬UInt8.ofNat (n / 4096 % 16 + 224) < 0xE0 ∧ 0xE0 ≤ UInt8.ofNat (n / 4096 % 16 + 224) ∧
      UInt8.ofNat (n / 4096 % 16 + 224) < 0xF0 := by
    simp [UInt8.lt_iff_toNat_lt, UInt8.le_iff_toNat_le]
    omega
  have code : (UInt8.ofNat (n / 4096 % 16 + 224)).toNat % 0x10 * 0x1000 +
      n / 64 % 64 * 0x40 + n % 64 = n := by
    simp
    omega
  have accepted : 0x800 ≤ n ∧ (decide (0xD800 ≤ n) && decide (n < 0xE000)) = false := by
    simp
    omega
  rw [decodeOne.eq_def]
  simp only [lead, last, middle, bits, bits', code, accepted, if_true, if_false, decide_true,
    decide_false, Bool.and_self, Bool.and_false, Bool.not_false, Bool.false_eq_true]

theorem decodeOne_four (more : 65535 < n) (bounded : n < 0x110000) :
    decodeOne (UInt8.ofNat (n / 262144 % 8 + 240) :: UInt8.ofNat (n / 4096 % 64 + 128) ::
      UInt8.ofNat (n / 64 % 64 + 128) :: UInt8.ofNat (n % 64 + 128) :: rest) =
      some (Char.ofNat n, rest) := by
  obtain ⟨last, bits⟩ := continuation (Nat.mod_lt n (by decide) : n % 64 < 64)
  obtain ⟨third, bits'⟩ := continuation (Nat.mod_lt (n / 64) (by decide) : n / 64 % 64 < 64)
  obtain ⟨second, bits''⟩ := continuation (Nat.mod_lt (n / 4096) (by decide) : n / 4096 % 64 < 64)
  have lead : ¬UInt8.ofNat (n / 262144 % 8 + 240) < 0x80 ∧
      ¬UInt8.ofNat (n / 262144 % 8 + 240) < 0xE0 ∧ ¬UInt8.ofNat (n / 262144 % 8 + 240) < 0xF0 ∧
      0xF0 ≤ UInt8.ofNat (n / 262144 % 8 + 240) ∧ UInt8.ofNat (n / 262144 % 8 + 240) < 0xF5 := by
    simp [UInt8.lt_iff_toNat_lt, UInt8.le_iff_toNat_le]
    omega
  have code : (UInt8.ofNat (n / 262144 % 8 + 240)).toNat % 0x08 * 0x40000 +
      n / 4096 % 64 * 0x1000 + n / 64 % 64 * 0x40 + n % 64 = n := by
    simp
    omega
  have accepted : 0x10000 ≤ n ∧ n < 0x110000 := ⟨more, bounded⟩
  rw [decodeOne.eq_def]
  simp only [lead, last, third, second, bits, bits', bits'', code, accepted, if_true, if_false,
    decide_true, decide_false, Bool.and_self, Bool.and_false, Bool.false_eq_true]

end

/-- A character is decoded from its bytes. -/
theorem decodeOne_encoded (c : Char) (rest : List UInt8) :
    decodeOne (String.utf8EncodeChar c ++ rest) = some (c, rest) := by
  have number := toNat_cases c
  have same : c.val.toNat = c.toNat := rfl
  rw [String.utf8EncodeChar, same]
  generalize size : c.toNat = n at number
  obtain rfl : Char.ofNat n = c := size ▸ Char.ofNat_toNat c
  split
  · next one => exact decodeOne_one rest (by omega)
  split
  · next two => exact decodeOne_two rest (by omega) (by omega)
  split
  · next three => exact decodeOne_three rest (by omega) (by omega) (by omega)
  · next four => exact decodeOne_four rest (by omega) (by omega)

theorem utf8EncodeChar_ne_nil (c : Char) : String.utf8EncodeChar c ≠ [] := by
  intro none_left
  have decoded := decodeOne_encoded c []
  rw [none_left] at decoded
  contradiction

/-- A text is decoded from its bytes. -/
theorem decodeLossy_encoded (cs : List Char) :
    decodeLossy (cs.flatMap String.utf8EncodeChar) = cs := by
  have each (fuel : Nat) (cs : List Char)
      (enough : (cs.flatMap String.utf8EncodeChar).length ≤ fuel) :
      decodeLossyFrom fuel (cs.flatMap String.utf8EncodeChar) = cs := by
    induction cs generalizing fuel with
    | nil => cases fuel <;> rfl
    | cons c rest ih =>
        obtain ⟨b, more, bytes⟩ := List.exists_cons_of_ne_nil (utf8EncodeChar_ne_nil c)
        have decoded := decodeOne_encoded c (rest.flatMap String.utf8EncodeChar)
        rw [List.flatMap_cons, bytes, List.cons_append] at enough ⊢
        rw [bytes, List.cons_append] at decoded
        rw [List.length_cons, List.length_append] at enough
        obtain ⟨left, rfl⟩ := Nat.exists_eq_add_one.mpr (Nat.zero_lt_of_lt enough)
        rw [decodeLossyFrom, decoded]
        exact congrArg (c :: ·) (ih left (by omega))
  exact each _ cs Nat.le.refl

/-- No byte of a plain text is zero. -/
theorem ne_zero_of_isPlain {c : Char} (plain : IsPlain c) :
    ∀ b ∈ String.utf8EncodeChar c, b ≠ 0 := by
  have bounds : (' ').toNat ≤ c.toNat ∧ c.toNat ≤ ('~').toNat := plain
  have same : c.val.toNat = c.toNat := rfl
  simp only [Char.reduceToNat] at bounds
  rw [String.utf8EncodeChar, same, if_pos (by omega), List.forall_mem_singleton]
  intro zero
  have code := congrArg UInt8.toNat zero
  simp at code
  omega

end FlowDiagram.Text
