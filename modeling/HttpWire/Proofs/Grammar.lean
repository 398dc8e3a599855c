import HttpWire.Byte
import HttpWire.Proofs.Text.Utf8
import Mathlib.Data.List.Forall2
import Mathlib.Data.Nat.Digits.Defs
/-!
# What the grammars share

Line breaks, blanks and numbers as they stand on the wire, written down without the readers of them.
A digit has the value that is its place among the digits, and in a number each digit counts for as
much as the base says.
-/

namespace HttpWire

/-- A line break: a line feed, before which one carriage return may stand. As a line of its own it
is the empty line. -/
def LineBreak (bytes : Bytes) : Prop := bytes = [Byte.lf] ∨ bytes = [Byte.cr, Byte.lf]

/-- A line break begins with a byte that ends names, words and values. -/
theorem LineBreak.head? {lineBreak : Bytes} (h : LineBreak lineBreak) :
    ∃ b more, lineBreak = b :: more ∧ Byte.isBreak b = true := by
  obtain rfl | rfl := h
  · exact ⟨_, _, rfl, by decide⟩
  · exact ⟨_, _, rfl, by decide⟩

/-- It ends with the only line feed in it. -/
theorem LineBreak.text {line : Bytes} (h : LineBreak line) :
    ∃ text, line = text ++ [Byte.lf] ∧ Byte.lf ∉ text := by
  obtain rfl | rfl := h
  · exact ⟨[], rfl, by simp⟩
  · exact ⟨[Byte.cr], rfl, by decide⟩

theorem LineBreak.length_le {line : Bytes} (h : LineBreak line) : line.length ≤ 2 := by
  obtain rfl | rfl := h <;> decide

/-- Spaces and tabs, any number of them. -/
def Blanks (bytes : Bytes) : Prop := ∀ b ∈ bytes, b = Byte.space ∨ b = Byte.tab

theorem blanks_iff {bytes : Bytes} : Blanks bytes ↔ ∀ b ∈ bytes, Byte.isBlank b = true := by
  simp [Blanks, Byte.isBlank]

/-! ## Numbers -/

/-- The digits, with small letters from ten on. -/
def smallDigits : List Char :=
  ['0', '1', '2', '3', '4', '5', '6', '7', '8', '9', 'a', 'b', 'c', 'd', 'e', 'f']

/-- The digits, with capital letters from ten on. -/
def capitalDigits : List Char :=
  ['0', '1', '2', '3', '4', '5', '6', '7', '8', '9', 'A', 'B', 'C', 'D', 'E', 'F']

/-- Whether a byte is the digit of a value that is less than the base, with a letter of either
case. -/
def DigitOf (base : Nat) (b : UInt8) (value : Nat) : Prop :=
  value < base ∧ (smallDigits[value]? = some (Char.ofNat b.toNat) ∨
    capitalDigits[value]? = some (Char.ofNat b.toNat))

instance (base : Nat) (b : UInt8) (value : Nat) : Decidable (DigitOf base b value) :=
  inferInstanceAs (Decidable (_ ∧ _))

/-- Whether some digits denote a number, the first of them counting for most. No digits denote
zero. -/
def Denotes (base : Nat) (digits : Bytes) (n : Nat) : Prop :=
  ∃ values, List.Forall₂ (DigitOf base) digits values ∧ n = Nat.ofDigits base values.reverse

/-- Reading digit by digit gives the number that the values of the digits make up. -/
theorem foldl_eq_ofDigits (base : Nat) (value : UInt8 → Nat) (digits : Bytes) :
    digits.foldl (fun n b => base * n + value b) 0 =
      Nat.ofDigits base (digits.map value).reverse := by
  rw [Nat.ofDigits_eq_foldr, List.foldr_reverse, List.foldl_map]
  simp only [Nat.cast_id, Nat.add_comm]

/-- **What digits denote**, for a test of digits and a reader of their values. -/
theorem denotes_iff {base : Nat} {isDigit : UInt8 → Bool} {value : UInt8 → Nat}
    (hdigit : ∀ b n, DigitOf base b n ↔ isDigit b = true ∧ value b = n) {digits : Bytes} {n : Nat} :
    Denotes base digits n ↔ (∀ b ∈ digits, isDigit b = true) ∧
      n = digits.foldl (fun n b => base * n + value b) 0 := by
  have hrelation : DigitOf base = fun b n => isDigit b = true ∧ value b = n := by
    funext b n
    rw [eq_iff_iff, hdigit]
  have hvalues : ∀ values, List.Forall₂ (DigitOf base) digits values ↔
      (∀ b ∈ digits, isDigit b = true) ∧ digits.map value = values := by
    intro values
    rw [hrelation, List.forall₂_and_left, ← List.forall₂_map_left_iff, List.forall₂_eq_eq_eq]
  rw [foldl_eq_ofDigits]
  constructor
  · rintro ⟨values, hforall, rfl⟩
    obtain ⟨hall, rfl⟩ := (hvalues values).mp hforall
    exact ⟨hall, rfl⟩
  · rintro ⟨hall, rfl⟩
    exact ⟨_, (hvalues _).mpr ⟨hall, rfl⟩, rfl⟩

/-- The digits of a base are those with a value below it, which is a matter of 256 bytes. -/
theorem digitOf_iff {base : Nat} {isDigit : UInt8 → Bool} {value : UInt8 → Nat}
    (h : ∀ m < 0x100, ∀ n < base, DigitOf base (UInt8.ofNat m) n ↔
      isDigit (UInt8.ofNat m) = true ∧ value (UInt8.ofNat m) = n)
    (hlt : ∀ m < 0x100, isDigit (UInt8.ofNat m) = true → value (UInt8.ofNat m) < base)
    (b : UInt8) (n : Nat) : DigitOf base b n ↔ isDigit b = true ∧ value b = n := by
  have hvalue : isDigit b = true → value b < base :=
    Utf8.forall_byte (p := fun b => isDigit b = true → value b < base) hlt b
  have hbelow : ∀ n < base, DigitOf base b n ↔ isDigit b = true ∧ value b = n :=
    Utf8.forall_byte (p := fun b => ∀ n < base, DigitOf base b n ↔ isDigit b = true ∧ value b = n)
      h b
  constructor
  · intro hn
    exact (hbelow n hn.1).mp hn
  · rintro ⟨hb, rfl⟩
    exact (hbelow _ (hvalue hb)).mpr ⟨hb, rfl⟩

/-- **Hexadecimal numbers are read as they are written.** -/
theorem denotes_hexadecimal {digits : Bytes} {n : Nat} :
    Denotes 16 digits n ↔
      (∀ b ∈ digits, Byte.isHexDigit b = true) ∧ n = Bytes.hexadecimalValue digits :=
  denotes_iff (digitOf_iff (by decide +kernel) (by decide +kernel))

/-- **So are decimal ones.** -/
theorem denotes_decimal {digits : Bytes} {n : Nat} :
    Denotes 10 digits n ↔
      (∀ b ∈ digits, Byte.isDigit b = true) ∧ n = Bytes.decimalValue digits :=
  denotes_iff (digitOf_iff (by decide +kernel) (by decide +kernel))

example : Denotes 16 [0x31, 0x66, 0x46] 0x1FF :=
  ⟨[1, 15, 15], by simp [DigitOf, smallDigits, capitalDigits], by decide⟩

end HttpWire
