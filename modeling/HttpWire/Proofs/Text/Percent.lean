import HttpWire.Text.Percent
import HttpWire.Proofs.Text.Utf8
/-!
# Query values on the wire

Reading the written form of a value gives the value back, byte by byte. The written form is made
of few characters, and none of them ends a value or means anything else in a URL.
-/

namespace HttpWire.Percent

/-! ## Written characters -/

/-- A character that may stand in the written form of a value. -/
def isWritten (c : Char) : Bool := c.isAlphanum || ['-', '.', '_', '~', '+', '%'].contains c

/-- Whether a byte is the one byte of the written character of its number. -/
def isWrittenByte (e : UInt8) : Bool :=
  String.utf8EncodeChar (Char.ofNat e.toNat) == [e] && (Char.ofNat e.toNat).toNat < 0x80 &&
    isWritten (Char.ofNat e.toNat)

theorem isWrittenByte_escape (b : UInt8) : (escape b).all isWrittenByte = true := by
  refine Utf8.forall_byte (p := fun b => (escape b).all isWrittenByte = true) ?_ b
  decide +kernel

theorem written_of_mem_escapeAll {value : Bytes} {e : UInt8} (h : e ∈ escapeAll value) :
    String.utf8EncodeChar (Char.ofNat e.toNat) = [e] ∧ (Char.ofNat e.toNat).toNat < 0x80 ∧
      isWritten (Char.ofNat e.toNat) = true := by
  obtain ⟨b, -, he⟩ := List.mem_flatMap.mp h
  have hwritten := List.all_eq_true.mp (isWrittenByte_escape b) e he
  simpa [isWrittenByte, and_assoc] using hwritten

theorem isWritten_of_mem_encode {value : String} {c : Char} (h : c ∈ (encode value).toList) :
    c.toNat < 0x80 ∧ isWritten c = true := by
  rw [encode, String.toList_ofList, List.mem_map] at h
  obtain ⟨e, he, rfl⟩ := h
  exact (written_of_mem_escapeAll he).2

/-- The bytes of a written form are the escapes that it is made of. -/
theorem encode_encode (value : String) :
    Utf8.encode (encode value) = escapeAll (Utf8.encode value) := by
  rw [encode, Utf8.encode, String.toList_ofList, List.flatMap_map]
  have hbytes : ∀ {bytes : Bytes}, (∀ e ∈ bytes, String.utf8EncodeChar (Char.ofNat e.toNat) = [e]) →
      bytes.flatMap (fun e => String.utf8EncodeChar (Char.ofNat e.toNat)) = bytes := by
    intro bytes h
    induction bytes with
    | nil => rfl
    | cons e bytes ih =>
      rw [List.flatMap_cons, h e (by simp), ih fun e' he' => h e' (by simp [he'])]
      rfl
  exact hbytes fun e he => (written_of_mem_escapeAll he).1

/-! ## Reading escapes -/

theorem readEscapes_plain {a : UInt8} (h : a ≠ Byte.percent) (done rest : Bytes) :
    readEscapes done (a :: rest) = readEscapes (a :: done) rest := by
  match rest with
  | [] => rfl
  | [b] => rfl
  | b :: c :: rest => rw [readEscapes, if_neg (by simpa using h)]

theorem readEscapes_escaped {high low value : UInt8} (h : escaped? high low = some value)
    (done rest : Bytes) :
    readEscapes done (Byte.percent :: high :: low :: rest) = readEscapes (value :: done) rest := by
  rw [readEscapes, if_pos (by decide), h]

/-- Once plus signs are spaces, a byte stands for itself, or it is escaped. -/
theorem plusToSpace_escape (b : UInt8) :
    (b ≠ Byte.percent ∧ plusToSpace (escape b) = [b]) ∨
      ∃ high low, escaped? high low = some b ∧
        plusToSpace (escape b) = [Byte.percent, high, low] := by
  have hplain : isUnreserved b = true → b ≠ Byte.percent ∧ plusToSpace [b] = [b] := by
    refine Utf8.forall_byte (p := fun b => isUnreserved b = true →
      b ≠ Byte.percent ∧ plusToSpace [b] = [b]) ?_ b
    decide +kernel
  have hescaped : escaped? (hexDigit (b / 16)) (hexDigit (b % 16)) = some b ∧
      plusToSpace [Byte.percent, hexDigit (b / 16), hexDigit (b % 16)] =
        [Byte.percent, hexDigit (b / 16), hexDigit (b % 16)] := by
    refine Utf8.forall_byte (p := fun b =>
      escaped? (hexDigit (b / 16)) (hexDigit (b % 16)) = some b ∧
        plusToSpace [Byte.percent, hexDigit (b / 16), hexDigit (b % 16)] =
          [Byte.percent, hexDigit (b / 16), hexDigit (b % 16)]) ?_ b
    decide +kernel
  rw [escape]
  split
  · next hunreserved => exact .inl (hplain hunreserved)
  · split
    · next hspace =>
      rw [beq_iff_eq.mp hspace]
      exact .inl ⟨by decide, rfl⟩
    · exact .inr ⟨_, _, hescaped⟩

theorem readEscapes_escapeAll (done value : Bytes) :
    readEscapes done (plusToSpace (escapeAll value)) = value.reverse ++ done := by
  induction value generalizing done with
  | nil => rfl
  | cons b value ih =>
    have hcons : plusToSpace (escapeAll (b :: value)) =
        plusToSpace (escape b) ++ plusToSpace (escapeAll value) := by
      rw [escapeAll, List.flatMap_cons, plusToSpace, List.map_append]
      rfl
    have hread : readEscapes done (plusToSpace (escape b) ++ plusToSpace (escapeAll value)) =
        readEscapes (b :: done) (plusToSpace (escapeAll value)) := by
      rcases plusToSpace_escape b with ⟨hb, hwritten⟩ | ⟨high, low, hescaped, hwritten⟩
      · rw [hwritten]
        exact readEscapes_plain hb _ _
      · rw [hwritten]
        exact readEscapes_escaped hescaped _ _
    rw [hcons, hread, ih, List.reverse_cons, List.append_assoc]
    rfl

/-- **Query values survive being written**, whatever characters they hold. -/
theorem decode_encode (value : String) : decode (encode value) = value := by
  rw [decode, encode_encode, unescapeAll, readEscapes_escapeAll, List.append_nil,
    List.reverse_reverse, Utf8.decodeLossy_encode]

/-! ## Written text -/

/-- A character that stands for itself in a written value. -/
def isPlain (c : Char) : Bool := c.isAlphanum || ['-', '_', '.', '~'].contains c

/-- A capital hexadecimal digit. -/
def isCapitalHex (c : Char) : Bool := c.isDigit || ('A' ≤ c && c ≤ 'F')

/-- A text as values are written: characters that stand for themselves, plus signs, and percent
signs that have two capital hexadecimal digits behind them. -/
inductive IsWrittenText : List Char → Prop where
  | nil : IsWrittenText []
  | plain {c : Char} {rest : List Char} (hc : isPlain c = true) (hrest : IsWrittenText rest) :
      IsWrittenText (c :: rest)
  | plus {rest : List Char} (hrest : IsWrittenText rest) : IsWrittenText ('+' :: rest)
  | escape {high low : Char} {rest : List Char} (hhigh : isCapitalHex high = true)
      (hlow : isCapitalHex low = true) (hrest : IsWrittenText rest) :
      IsWrittenText ('%' :: high :: low :: rest)

theorem isWrittenText_escape (b : UInt8) {rest : List Char} (hrest : IsWrittenText rest) :
    IsWrittenText ((escape b).map (fun e => Char.ofNat e.toNat) ++ rest) := by
  have hplain : isUnreserved b = true → isPlain (Char.ofNat b.toNat) = true := by
    refine Utf8.forall_byte (p := fun b => isUnreserved b = true →
      isPlain (Char.ofNat b.toNat) = true) ?_ b
    decide +kernel
  have hdigits : isCapitalHex (Char.ofNat (hexDigit (b / 16)).toNat) = true ∧
      isCapitalHex (Char.ofNat (hexDigit (b % 16)).toNat) = true := by
    refine Utf8.forall_byte (p := fun b =>
      isCapitalHex (Char.ofNat (hexDigit (b / 16)).toNat) = true ∧
        isCapitalHex (Char.ofNat (hexDigit (b % 16)).toNat) = true) ?_ b
    decide +kernel
  rw [escape]
  split
  · next hunreserved => exact .plain (hplain hunreserved) hrest
  · split
    · exact .plus hrest
    · exact .escape hdigits.1 hdigits.2 hrest

theorem isWrittenText_escapeAll (value : Bytes) :
    IsWrittenText ((escapeAll value).map fun e => Char.ofNat e.toNat) := by
  induction value with
  | nil => exact .nil
  | cons b value ih =>
    rw [escapeAll, List.flatMap_cons, List.map_append]
    exact isWrittenText_escape b ih

/-- Neither the separators of a query nor what ends it are written characters. -/
theorem not_delimiter_of_isWritten {c : Char} (h : isWritten c = true) :
    c ∉ ['&', '=', '#', '?', ' '] := by
  intro hmem
  simp only [List.mem_cons, List.not_mem_nil, or_false] at hmem
  rcases hmem with rfl | rfl | rfl | rfl | rfl <;> exact absurd h (by decide)

/-- **A value is written in ASCII and reads back.** Whatever characters it holds, its written form
stands for it and is made up of characters that stand for themselves, plus signs and escapes, so
that nothing in it ends the value or means anything else in a URL. -/
theorem encode_readsBack (value : String) :
    decode (encode value) = value ∧ IsWrittenText (encode value).toList ∧
      ∀ c ∈ (encode value).toList, c.toNat < 0x80 ∧ c ∉ ['&', '=', '#', '?', ' '] := by
  refine ⟨decode_encode value, ?_, ?_⟩
  · rw [encode, String.toList_ofList]
    exact isWrittenText_escapeAll (Utf8.encode value)
  · intro c hc
    obtain ⟨hascii, hwritten⟩ := isWritten_of_mem_encode hc
    exact ⟨hascii, not_delimiter_of_isWritten hwritten⟩

example : encode "pm2.5 = 12 µg+" = "pm2.5+%3D+12+%C2%B5g%2B" := by decide

/-! ## Values that are read as they are -/

theorem readEscapes_of_plain (done : Bytes) {bytes : Bytes} (h : Byte.percent ∉ bytes) :
    readEscapes done bytes = bytes.reverse ++ done := by
  induction bytes generalizing done with
  | nil => rfl
  | cons b bytes ih =>
    rw [List.mem_cons, not_or] at h
    rw [readEscapes_plain (Ne.symm h.1), ih _ h.2, List.reverse_cons, List.append_assoc]
    rfl

/-- **Without escapes and plus signs a value is read as it is written.** -/
theorem decode_of_plain {value : String} (h : '%' ∉ value.toList ∧ '+' ∉ value.toList) :
    decode value = value := by
  have hbytes : ∀ b ∈ Utf8.encode value, (b != Byte.percent && b != Byte.plus) = true := by
    refine Utf8.forall_mem_encode (fun b hb => ?_) fun c hc hascii => ?_
    · have hhigh : ∀ limit : UInt8, limit < 0x80 → b ≠ limit := by
        rintro limit hlimit rfl
        exact absurd (UInt8.lt_of_lt_of_le hlimit hb) (UInt8.lt_irrefl _)
      simp [hhigh Byte.percent (by decide), hhigh Byte.plus (by decide)]
    · have hpercent : c ≠ '%' := fun heq => h.1 (heq ▸ hc)
      have hplus : c ≠ '+' := fun heq => h.2 (heq ▸ hc)
      revert hpercent hplus
      refine Utf8.forall_ascii (p := fun c => c ≠ '%' → c ≠ '+' →
        (c.toNat.toUInt8 != Byte.percent && c.toNat.toUInt8 != Byte.plus) = true) ?_ hascii
      decide +kernel
  simp only [Bool.and_eq_true, bne_iff_ne] at hbytes
  have hspaces : plusToSpace (Utf8.encode value) = Utf8.encode value := by
    have hsame : ∀ b ∈ Utf8.encode value, (if b == Byte.plus then Byte.space else b) = id b := by
      intro b hb
      rw [if_neg (by simpa using (hbytes b hb).2)]
      rfl
    rw [plusToSpace, List.map_congr_left hsame, List.map_id]
  have hescapes : Byte.percent ∉ Utf8.encode value := fun hmem => (hbytes _ hmem).1 rfl
  rw [decode, hspaces, unescapeAll, readEscapes_of_plain [] hescapes, List.append_nil,
    List.reverse_reverse, Utf8.decodeLossy_encode]

end HttpWire.Percent
