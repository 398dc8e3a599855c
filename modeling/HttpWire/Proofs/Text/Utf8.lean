import HttpWire.Text.Utf8
/-!
# Text on the wire

Text that was encoded reads back as it was, strictly as well as leniently. The bytes of a
character show whether it belongs to ASCII: its number is then the only byte, and otherwise all
of them are from 0x80 on. So a class of bytes that holds everything from 0x80 on can be checked
character by character.
-/

namespace HttpWire

namespace Byte

/-! ## Bytes beyond ASCII -/

theorem lt_of_high {b limit : UInt8} (h : 0x80 ≤ b) (hlimit : limit < 0x80) : limit < b := by
  rw [UInt8.lt_iff_toNat_lt] at hlimit ⊢
  rw [UInt8.le_iff_toNat_le] at h
  exact Nat.lt_of_lt_of_le hlimit h

theorem toLower_of_high {b : UInt8} (h : 0x80 ≤ b) : toLower b = b := by
  have hnot : ¬ b ≤ 0x5A := UInt8.not_le.mpr (lt_of_high h (by decide))
  simp [toLower, isUpper, hnot]

theorem isTarget_of_high {b : UInt8} (h : 0x80 ≤ b) : isTarget b = true := by
  have hle : 0x21 ≤ b := UInt8.le_of_lt (lt_of_high h (by decide))
  have hne : b ≠ 0x7F := by
    intro heq
    subst heq
    exact absurd h (by decide)
  simp [isTarget, hle, hne]

theorem isText_of_isTarget {b : UInt8} (h : isTarget b = true) : isText b = true := by
  rw [isText, h, Bool.true_or]

end Byte

namespace Utf8

/-! ## One by one -/

/-- What holds of the 256 bytes can be checked one by one. -/
theorem forall_byte {p : UInt8 → Prop} (h : ∀ n < 0x100, p (UInt8.ofNat n)) (b : UInt8) : p b := by
  have hn := h b.toNat b.toNat_lt
  rwa [UInt8.ofNat_toNat] at hn

/-- What holds of the 128 characters of ASCII can be checked one by one. -/
theorem forall_ascii {p : Char → Prop} (h : ∀ n < 0x80, p (Char.ofNat n)) {c : Char}
    (hc : c.toNat < 0x80) : p c := by
  have hn := h c.toNat hc
  rwa [Char.ofNat_toNat] at hn

/-! ## Bytes of characters -/

theorem encodeChar_of_ascii {c : Char} (h : c.toNat < 0x80) :
    String.utf8EncodeChar c = [c.toNat.toUInt8] := by
  have hle : c.val.toNat ≤ 0x7F := Nat.le_of_lt_succ h
  unfold String.utf8EncodeChar
  rw [if_pos hle]
  rfl

theorem le_of_mem_encodeChar {c : Char} (h : 0x80 ≤ c.toNat) {b : UInt8}
    (hb : b ∈ String.utf8EncodeChar c) : 0x80 ≤ b := by
  have hbig : ¬ c.val.toNat ≤ 0x7F := Nat.not_le.mpr h
  have hhigh : ∀ n : Nat, 0x80 ≤ n → n < 0x100 → (0x80 : UInt8) ≤ UInt8.ofNat n := by
    intro n hle hlt
    rw [UInt8.le_iff_toNat_le, UInt8.toNat_ofNat', Nat.mod_eq_of_lt hlt]
    exact hle
  unfold String.utf8EncodeChar at hb
  rw [if_neg hbig] at hb
  split at hb
  · simp only [List.mem_cons, List.not_mem_nil, or_false] at hb
    rcases hb with rfl | rfl <;> exact hhigh _ (by omega) (by omega)
  · split at hb
    · simp only [List.mem_cons, List.not_mem_nil, or_false] at hb
      rcases hb with rfl | rfl | rfl <;> exact hhigh _ (by omega) (by omega)
    · simp only [List.mem_cons, List.not_mem_nil, or_false] at hb
      rcases hb with rfl | rfl | rfl | rfl <;> exact hhigh _ (by omega) (by omega)

/-- A class of bytes is a class of characters, if it holds all bytes from 0x80 on. -/
theorem forall_mem_encode {inClass : UInt8 → Bool} (hhigh : ∀ b, 0x80 ≤ b → inClass b = true)
    {chars : List Char}
    (h : ∀ c ∈ chars, c.toNat < 0x80 → inClass c.toNat.toUInt8 = true) :
    ∀ b ∈ chars.flatMap String.utf8EncodeChar, inClass b = true := by
  intro b hb
  obtain ⟨c, hc, hbc⟩ := List.mem_flatMap.mp hb
  by_cases hascii : c.toNat < 0x80
  · rw [encodeChar_of_ascii hascii, List.mem_singleton] at hbc
    rw [hbc]
    exact h c hc hascii
  · exact hhigh b (le_of_mem_encodeChar (Nat.not_lt.mp hascii) hbc)

/-- Text of ASCII characters has their numbers as its bytes. -/
theorem encode_ascii {chars : List Char} (h : ∀ c ∈ chars, c.toNat < 0x80) :
    chars.flatMap String.utf8EncodeChar = chars.map fun c => c.toNat.toUInt8 := by
  induction chars with
  | nil => rfl
  | cons c chars ih =>
    rw [List.flatMap_cons, encodeChar_of_ascii (h c (by simp)),
      ih fun d hd => h d (by simp [hd])]
    rfl

/-! ## Letters and digits -/

theorem ascii_of_le {c top : Char} (htop : top.toNat < 0x80) (h : c ≤ top) : c.toNat < 0x80 :=
  Nat.lt_of_le_of_lt h htop

theorem ascii_of_isDigit {c : Char} (h : c.isDigit = true) : c.toNat < 0x80 :=
  ascii_of_le (by decide) (Char.isDigit_iff_toNat.mp h).2

theorem ascii_of_isAlphanum {c : Char} (h : c.isAlphanum = true) : c.toNat < 0x80 := by
  have hcases : (c.isUpper || c.isLower || c.isDigit) = true := h
  rw [Bool.or_eq_true, Bool.or_eq_true] at hcases
  rcases hcases with (hupper | hlower) | hdigit
  · have hrange : 'A' ≤ c ∧ c ≤ 'Z' := of_decide_eq_true hupper
    exact ascii_of_le (by decide) hrange.2
  · have hrange : (decide ('a' ≤ c) && decide (c ≤ 'z')) = true := hlower
    rw [Bool.and_eq_true, decide_eq_true_eq, decide_eq_true_eq] at hrange
    exact ascii_of_le (by decide) hrange.2
  · exact ascii_of_isDigit hdigit

/-- A digit is the same digit as a byte: text, and no blank. -/
theorem byte_of_isDigit {c : Char} (h : c.isDigit = true) :
    c.toNat.toUInt8.toNat = c.toNat ∧ Byte.isDigit c.toNat.toUInt8 = true ∧
      Byte.isTarget c.toNat.toUInt8 = true ∧ Byte.isBlank c.toNat.toUInt8 = false := by
  have hascii := ascii_of_isDigit h
  revert h
  refine forall_ascii (p := fun c => c.isDigit = true →
    c.toNat.toUInt8.toNat = c.toNat ∧ Byte.isDigit c.toNat.toUInt8 = true ∧
      Byte.isTarget c.toNat.toUInt8 = true ∧ Byte.isBlank c.toNat.toUInt8 = false) ?_ hascii
  decide +kernel

theorem foldl_digits {digits : List Char} (h : ∀ c ∈ digits, c.isDigit = true) (n : Nat) :
    (digits.map fun c => c.toNat.toUInt8).foldl (fun n d => 10 * n + (d.toNat - 0x30)) n =
      Nat.ofDigitChars 10 digits n := by
  induction digits generalizing n with
  | nil => rfl
  | cons c digits ih =>
    rw [List.map_cons, List.foldl_cons, (byte_of_isDigit (h c (by simp))).1,
      ih fun d hd => h d (by simp [hd]), Nat.ofDigitChars_cons]
    rfl

/-! ## Reading what was written -/

theorem leadingChar?_encodeChar (c : Char) (rest : Bytes) :
    leadingChar? (String.utf8EncodeChar c ++ rest) = some c := by
  have hlen : (String.utf8EncodeChar c).length ≤ 4 := by
    rw [String.length_utf8EncodeChar]
    exact c.utf8Size_le_four
  rw [leadingChar?, List.take_append, List.take_of_length_le hlen, List.toByteArray_append]
  exact ByteArray.utf8DecodeChar?_utf8EncodeChar_append

theorem readPieces_encodeChar (seen : List (Option Char)) (c : Char) (rest : Bytes) :
    readPieces seen (String.utf8EncodeChar c ++ rest) = readPieces (some c :: seen) rest := by
  have hlead := leadingChar?_encodeChar c rest
  have hlen := String.length_utf8EncodeChar c
  cases hbytes : String.utf8EncodeChar c with
  | nil => exact absurd hbytes String.utf8EncodeChar_ne_nil
  | cons b tail =>
    rw [hbytes, List.cons_append] at hlead
    rw [hbytes, List.length_cons] at hlen
    have hdrop : (tail ++ rest).drop (c.utf8Size - 1) = rest := by
      rw [← hlen, Nat.add_sub_cancel, List.drop_left]
    rw [List.cons_append, readPieces, hlead]
    dsimp only
    rw [hdrop]

/-! ## Piece by piece -/

theorem exists_of_leadingChar? {bytes : Bytes} {c : Char} (h : leadingChar? bytes = some c) :
    ∃ rest, bytes = String.utf8EncodeChar c ++ rest := by
  obtain ⟨rest, hrest⟩ := ByteArray.exists_of_utf8DecodeChar?_eq_some h
  have hlist := congrArg (fun array => array.data.toList) hrest
  simp only [List.data_toByteArray, ByteArray.data_append, Array.toList_append] at hlist
  refine ⟨rest.data.toList ++ bytes.drop 4, ?_⟩
  rw [← List.append_assoc, ← hlist, List.take_append_drop]

/-- What holds of no bytes, and behind a character as well as behind a malformed piece if it holds
of the rest, holds of all bytes. -/
theorem piece_induction {motive : Bytes → Prop} (nil : motive [])
    (char : ∀ c rest, motive rest → motive (String.utf8EncodeChar c ++ rest))
    (malformed : ∀ b rest, leadingChar? (b :: rest) = none →
      motive (rest.drop (malformedLength b rest - 1)) → motive (b :: rest)) (bytes : Bytes) :
    motive bytes := by
  induction h : bytes.length using Nat.strongRecOn generalizing bytes with
  | ind length ih =>
    subst h
    cases bytes with
    | nil => exact nil
    | cons b rest =>
      cases hlead : leadingChar? (b :: rest) with
      | some c =>
        obtain ⟨after, hafter⟩ := exists_of_leadingChar? hlead
        have hless : after.length < (b :: rest).length := by
          have hpos := List.length_pos_iff.mpr (String.utf8EncodeChar_ne_nil (c := c))
          rw [hafter, List.length_append]
          omega
        rw [hafter]
        exact char c after (ih _ hless after rfl)
      | none =>
        have hless : (rest.drop (malformedLength b rest - 1)).length < (b :: rest).length := by
          rw [List.length_drop, List.length_cons]
          omega
        exact malformed b rest hlead (ih _ hless _ rfl)

theorem readPieces_malformed (seen : List (Option Char)) {b : UInt8} {rest : Bytes}
    (h : leadingChar? (b :: rest) = none) :
    readPieces seen (b :: rest) =
      readPieces (none :: seen) (rest.drop (malformedLength b rest - 1)) := by
  rw [readPieces, h]

/-- What was seen before only comes after what is read. -/
theorem readPieces_eq (seen : List (Option Char)) (bytes : Bytes) :
    readPieces seen bytes = (pieces bytes).reverse ++ seen := by
  rw [pieces, List.reverse_reverse]
  induction bytes using piece_induction generalizing seen with
  | nil => simp [readPieces]
  | char c rest ih =>
    rw [readPieces_encodeChar, readPieces_encodeChar, ih, ih [some c], List.append_assoc]
    rfl
  | malformed b rest h ih =>
    rw [readPieces_malformed seen h, readPieces_malformed [] h, ih, ih [none], List.append_assoc]
    rfl

theorem pieces_nil : pieces [] = [] := by simp [pieces, readPieces]

theorem pieces_encodeChar (c : Char) (rest : Bytes) :
    pieces (String.utf8EncodeChar c ++ rest) = some c :: pieces rest := by
  rw [pieces, readPieces_encodeChar, readPieces_eq]
  simp

theorem pieces_malformed {b : UInt8} {rest : Bytes} (h : leadingChar? (b :: rest) = none) :
    pieces (b :: rest) = none :: pieces (rest.drop (malformedLength b rest - 1)) := by
  rw [pieces, readPieces_malformed [] h, readPieces_eq]
  simp

/-- **The pieces of encoded text are its characters.** -/
theorem pieces_encode (text : String) : pieces (encode text) = text.toList.map some := by
  rw [encode]
  induction text.toList with
  | nil => exact pieces_nil
  | cons c chars ih => rw [List.flatMap_cons, pieces_encodeChar, ih, List.map_cons]

/-- Bytes whose pieces are characters encode them. -/
theorem encode_of_pieces {bytes : Bytes} {chars : List Char} (h : pieces bytes = chars.map some) :
    chars.flatMap String.utf8EncodeChar = bytes := by
  induction bytes using piece_induction generalizing chars with
  | nil =>
    rw [pieces_nil, eq_comm, List.map_eq_nil_iff] at h
    rw [h, List.flatMap_nil]
  | char c rest ih =>
    rw [pieces_encodeChar, eq_comm, List.map_eq_cons_iff] at h
    obtain ⟨c', later, rfl, hc, hlater⟩ := h
    rw [List.flatMap_cons, ih hlater.symm, Option.some.inj hc]
  | malformed b rest hlead ih =>
    rw [pieces_malformed hlead, eq_comm, List.map_eq_cons_iff] at h
    obtain ⟨c, later, -, hc, -⟩ := h
    cases hc

theorem decode?_encode (text : String) : decode? (encode text) = some text := by
  have hall : ∀ chars : List Char, (chars.map some).mapM id = some chars := by
    intro chars
    induction chars with
    | nil => rfl
    | cons c chars ih => simp [ih]
  rw [decode?, pieces_encode, hall, Option.map_some, String.ofList_toList]

theorem eq_map_of_mapM {pieces : List (Option Char)} {chars : List Char}
    (h : pieces.mapM id = some chars) : pieces = chars.map some := by
  induction pieces generalizing chars with
  | nil =>
    cases h
    rfl
  | cons piece pieces ih =>
    rw [List.mapM_cons] at h
    obtain ⟨c, hpiece, h⟩ := Option.bind_eq_some_iff.mp h
    obtain ⟨later, hlater, h⟩ := Option.bind_eq_some_iff.mp h
    cases h
    rw [List.map_cons, ← ih hlater]
    exact congrArg (· :: pieces) hpiece

/-- **Strict reading accepts exactly what writing produces.** -/
theorem decode?_eq_some_iff {bytes : Bytes} {text : String} :
    decode? bytes = some text ↔ bytes = encode text := by
  constructor
  · intro h
    rw [decode?, Option.map_eq_some_iff] at h
    obtain ⟨chars, hchars, rfl⟩ := h
    rw [encode, String.toList_ofList, encode_of_pieces (eq_map_of_mapM hchars)]
  · intro h
    rw [h, decode?_encode]

theorem decodeLossy_encode (text : String) : decodeLossy (encode text) = text := by
  rw [decodeLossy, pieces_encode, List.map_map]
  show String.ofList (text.toList.map id) = text
  rw [List.map_id, String.ofList_toList]

theorem encode_injective {a b : String} (h : encode a = encode b) : a = b := by
  have hdecode := decode?_encode a
  rw [h, decode?_encode] at hdecode
  exact (Option.some.inj hdecode).symm

end Utf8

end HttpWire
