import HttpWire.Proofs.Text.Utf8
import Mathlib.Data.String.Basic
/-!
# Searching text by its bytes

A class of bytes and a class of characters are the same if every byte of a character belongs to
the one where the character belongs to the other. No byte of a character beyond ASCII is taken
for one of ASCII, so the classes that the grammars speak of have this property, and a search for
a byte ends where the search for its character does.
-/

namespace HttpWire.Utf8

/-! ## Bytes of characters -/

/-- The bytes of some characters. -/
def bytesOf (chars : List Char) : Bytes := chars.flatMap String.utf8EncodeChar

@[simp]
theorem bytesOf_nil : bytesOf [] = [] := rfl

@[simp]
theorem bytesOf_append (a b : List Char) : bytesOf (a ++ b) = bytesOf a ++ bytesOf b :=
  List.flatMap_append

theorem bytesOf_cons (c : Char) (chars : List Char) :
    bytesOf (c :: chars) = String.utf8EncodeChar c ++ bytesOf chars := List.flatMap_cons

/-- Every character has a first byte. -/
theorem exists_encodeChar (c : Char) :
    ∃ b later, String.utf8EncodeChar c = b :: later ∧ b ∈ String.utf8EncodeChar c := by
  obtain ⟨b, later, hbytes⟩ := List.exists_cons_of_ne_nil (String.utf8EncodeChar_ne_nil (c := c))
  exact ⟨b, later, hbytes, by rw [hbytes]; exact List.mem_cons_self⟩

/-- A character of ASCII is one byte. -/
theorem bytesOf_cons_ascii {c : Char} (h : c.toNat < 0x80) (chars : List Char) :
    bytesOf (c :: chars) = c.toNat.toUInt8 :: bytesOf chars := by
  rw [bytesOf_cons, encodeChar_of_ascii h, List.cons_append, List.nil_append]

@[simp]
theorem length_bytesOf (chars : List Char) : (bytesOf chars).length = String.utf8Len chars := by
  induction chars with
  | nil => rfl
  | cons c chars ih =>
    rw [bytesOf_cons, List.length_append, String.length_utf8EncodeChar, ih, String.utf8Len_cons,
      Nat.add_comm]

theorem bytesOf_eq_nil {chars : List Char} : bytesOf chars = [] ↔ chars = [] := by
  rw [← List.length_eq_zero_iff, length_bytesOf, String.utf8Len_eq_zero]

theorem bytesOf_inj {a b : List Char} : bytesOf a = bytesOf b ↔ a = b := by
  constructor
  · intro h
    have htext : encode (String.ofList a) = encode (String.ofList b) := by
      rw [encode, encode, String.toList_ofList, String.toList_ofList]
      exact h
    exact String.ofList_injective (encode_injective htext)
  · exact congrArg bytesOf

theorem isEmpty_bytesOf (chars : List Char) : (bytesOf chars).isEmpty = chars.isEmpty := by
  rw [Bool.eq_iff_iff, List.isEmpty_iff, List.isEmpty_iff, bytesOf_eq_nil]

theorem take_bytesOf (run rest : List Char) :
    (bytesOf (run ++ rest)).take (String.utf8Len run) = bytesOf run := by
  rw [bytesOf_append, ← length_bytesOf, List.take_left]

theorem drop_bytesOf (run rest : List Char) :
    (bytesOf (run ++ rest)).drop (String.utf8Len run) = bytesOf rest := by
  rw [bytesOf_append, ← length_bytesOf, List.drop_left]

/-- What comes behind a run and a character of ASCII. -/
theorem drop_bytesOf_cons {c : Char} (h : c.toNat < 0x80) (run rest : List Char) :
    (bytesOf (run ++ c :: rest)).drop (String.utf8Len run + 1) = bytesOf rest := by
  rw [← List.drop_drop, drop_bytesOf, bytesOf_cons_ascii h, List.drop_succ_cons, List.drop_zero]

/-! ## Classes -/

/-- A class of bytes that says of every byte of a character what a class of characters says of
the character. -/
def SameClass (ofBytes : UInt8 → Bool) (ofChars : Char → Bool) : Prop :=
  ∀ c, ∀ b ∈ String.utf8EncodeChar c, ofBytes b = ofChars c

section

variable {ofBytes : UInt8 → Bool} {ofChars : Char → Bool}

/-- Two classes that agree on ASCII, and beyond it say the same of everything. -/
theorem sameClass_of_ascii (beyond : Bool)
    (hascii : ∀ n < 0x80, ofBytes (Char.ofNat n).toNat.toUInt8 = ofChars (Char.ofNat n))
    (hbytes : ∀ n < 0x100, 0x80 ≤ n → ofBytes (UInt8.ofNat n) = beyond)
    (hchars : ∀ c : Char, 0x80 ≤ c.toNat → ofChars c = beyond) : SameClass ofBytes ofChars := by
  intro c b hb
  by_cases hc : c.toNat < 0x80
  · rw [encodeChar_of_ascii hc, List.mem_singleton] at hb
    rw [hb]
    exact forall_ascii (p := fun c => ofBytes c.toNat.toUInt8 = ofChars c) hascii hc
  · have hhigh := le_of_mem_encodeChar (Nat.not_lt.mp hc) hb
    rw [UInt8.le_iff_toNat_le] at hhigh
    have hb := hbytes b.toNat b.toNat_lt hhigh
    rw [UInt8.ofNat_toNat] at hb
    rw [hb, hchars c (Nat.not_lt.mp hc)]

/-- A class of characters of ASCII only. -/
theorem SameClass.of_isAscii
    (hascii : ∀ n < 0x80, ofBytes (Char.ofNat n).toNat.toUInt8 = ofChars (Char.ofNat n))
    (hbytes : ∀ n < 0x100, 0x80 ≤ n → ofBytes (UInt8.ofNat n) = false)
    (hchars : ∀ {c}, ofChars c = true → c.toNat < 0x80) : SameClass ofBytes ofChars := by
  refine sameClass_of_ascii false hascii hbytes fun c hc => ?_
  rw [Bool.eq_false_iff]
  exact fun htrue => Nat.not_lt.mpr hc (hchars htrue)

theorem SameClass.not (h : SameClass ofBytes ofChars) : SameClass (!ofBytes ·) (!ofChars ·) :=
  fun c b hb => congrArg (!·) (h c b hb)

/-- A character of ASCII and its byte. -/
theorem sameClass_beq (delimiter : Char) (h : delimiter.toNat < 0x80) :
    SameClass (· == delimiter.toNat.toUInt8) (· == delimiter) := by
  have hbyte : ∀ {c : Char}, c.toNat < 0x80 → c.toNat.toUInt8.toNat = c.toNat := by
    intro c hc
    rw [UInt8.toNat_ofNat', Nat.mod_eq_of_lt (Nat.lt_trans hc (by decide))]
  intro c b hb
  rw [Bool.eq_iff_iff, beq_iff_eq, beq_iff_eq]
  by_cases hc : c.toNat < 0x80
  · rw [encodeChar_of_ascii hc, List.mem_singleton] at hb
    rw [hb, ← UInt8.toNat_inj, hbyte hc, hbyte h, Char.toNat_inj]
  · have hhigh := le_of_mem_encodeChar (Nat.not_lt.mp hc) hb
    rw [UInt8.le_iff_toNat_le] at hhigh
    constructor
    · rintro rfl
      rw [hbyte h] at hhigh
      exact absurd h (Nat.not_lt.mpr hhigh)
    · rintro rfl
      exact absurd h hc

variable (hsame : SameClass ofBytes ofChars)
include hsame

theorem all_bytesOf (chars : List Char) : (bytesOf chars).all ofBytes = chars.all ofChars := by
  rw [Bool.eq_iff_iff, List.all_eq_true, List.all_eq_true]
  constructor
  · intro h c hc
    obtain ⟨b, -, -, hb⟩ := exists_encodeChar c
    rw [← hsame c b hb]
    exact h b (List.mem_flatMap.mpr ⟨c, hc, hb⟩)
  · intro h b hb
    obtain ⟨c, hc, hb⟩ := List.mem_flatMap.mp hb
    rw [hsame c b hb]
    exact h c hc

theorem any_bytesOf (chars : List Char) : (bytesOf chars).any ofBytes = chars.any ofChars := by
  rw [← Bool.not_inj_iff, List.not_any_eq_all_not, List.not_any_eq_all_not]
  exact all_bytesOf hsame.not chars

/-- **A search for a byte ends where the search for its character does.** -/
theorem findIdx?_bytesOf {run rest : List Char} (hrun : ∀ c ∈ run, ofChars c = false)
    (hstop : ∀ c ∈ rest.head?, ofChars c = true) :
    (bytesOf (run ++ rest)).findIdx? ofBytes = rest.head?.map fun _ => String.utf8Len run := by
  have hnone : (bytesOf run).findIdx? ofBytes = none := by
    rw [List.findIdx?_eq_none_iff]
    intro b hb
    obtain ⟨c, hc, hb⟩ := List.mem_flatMap.mp hb
    rw [hsame c b hb, hrun c hc]
  rw [bytesOf_append, List.findIdx?_append, hnone, Option.none_or, length_bytesOf]
  cases rest with
  | nil => rfl
  | cons c rest =>
    obtain ⟨b, later, hbytes, hmem⟩ := exists_encodeChar c
    have hb : ofBytes b = true := by
      rw [hsame c b hmem]
      exact hstop c rfl
    rw [bytesOf_cons, hbytes, List.cons_append, List.findIdx?_cons, if_pos hb, Option.map_some,
      Nat.zero_add]
    rfl

/-- Whether the first byte is of a class. -/
theorem head?_bytesOf (chars : List Char) :
    (bytesOf chars).head?.any ofBytes = chars.head?.any ofChars := by
  cases chars with
  | nil => rfl
  | cons c chars =>
    obtain ⟨b, later, hbytes, hmem⟩ := exists_encodeChar c
    rw [bytesOf_cons, hbytes, List.cons_append, List.head?_cons, List.head?_cons, Option.any_some,
      Option.any_some]
    exact hsame c b hmem

end

/-! ## Characters of ASCII -/

section

variable {c : Char} (hascii : c.toNat < 0x80) {chars : List Char}
include hascii

theorem head?_bytesOf_eq_some :
    (bytesOf chars).head? = some c.toNat.toUInt8 ↔ chars.head? = some c := by
  have hany := head?_bytesOf (sameClass_beq c hascii) chars
  rw [Bool.eq_iff_iff, Option.any_eq_true, Option.any_eq_true] at hany
  simpa only [beq_iff_eq, exists_eq_right] using hany

theorem utf8Size_of_ascii : c.utf8Size = 1 := by
  rw [Char.utf8Size_eq_one_iff, UInt32.le_iff_toNat_le]
  exact Nat.le_of_lt_succ hascii

theorem mem_bytesOf : c.toNat.toUInt8 ∈ bytesOf chars ↔ c ∈ chars := by
  have hany := any_bytesOf (sameClass_beq c hascii) chars
  rw [Bool.eq_iff_iff, List.any_eq_true, List.any_eq_true] at hany
  simpa only [beq_iff_eq, exists_eq_right] using hany

theorem count_bytesOf_of_not_mem (h : c ∉ chars) : (bytesOf chars).count c.toNat.toUInt8 = 0 :=
  List.count_eq_zero.mpr fun hbyte => h ((mem_bytesOf hascii).mp hbyte)

theorem count_bytesOf_cons (rest : List Char) :
    (bytesOf (c :: rest)).count c.toNat.toUInt8 =
      (bytesOf rest).count c.toNat.toUInt8 + 1 := by
  rw [bytesOf_cons_ascii hascii, List.count_cons_self]

end

/-- Text starts with a mark of ASCII characters exactly if its bytes do with those of the mark. -/
theorem isPrefixOf_bytesOf (mark : List Char) (h : mark.all (·.toNat < 0x80) = true)
    (chars : List Char) : (bytesOf mark).isPrefixOf (bytesOf chars) = mark.isPrefixOf chars := by
  induction mark generalizing chars with
  | nil => rw [bytesOf_nil, List.isPrefixOf_nil_left, List.isPrefixOf_nil_left]
  | cons d mark ih =>
    rw [List.all_cons, Bool.and_eq_true, decide_eq_true_eq] at h
    obtain ⟨hd, hmark⟩ := h
    rw [bytesOf_cons_ascii hd]
    cases chars with
    | nil => rfl
    | cons c chars =>
      rw [List.isPrefixOf_cons_cons, ← ih hmark]
      by_cases hc : d = c
      · rw [← hc, bytesOf_cons_ascii hd, List.isPrefixOf_cons_cons, beq_self_eq_true,
          beq_self_eq_true]
      · obtain ⟨b, later, hbytes, hmem⟩ := exists_encodeChar c
        have hb : (b == d.toNat.toUInt8) = (c == d) := sameClass_beq d hd c b hmem
        rw [bytesOf_cons, hbytes, List.cons_append, List.isPrefixOf_cons_cons, Bool.beq_comm, hb,
          beq_eq_false_iff_ne.mpr (Ne.symm hc), beq_eq_false_iff_ne.mpr hc, Bool.false_and,
          Bool.false_and]

end HttpWire.Utf8
