import HttpWire.Framing
import HttpWire.Proofs.Head.Written
import HttpWire.Proofs.NameMap
/-!
# Framing of written heads

A length that is written in decimal digits is read as the same length. A head whose only word on
the body is such a length, and which asks for no other protocol, frames a body of that many bytes.
-/

namespace HttpWire

/-- The field of an entry in its wire form. -/
def Field.ofEntry (entry : String × String) : Field :=
  ⟨Utf8.encode entry.1, Utf8.encode entry.2⟩

/-! ## Plain fields -/

/-- A name with the letters of a token is a token. -/
theorem isToken_of_sameName {name token : String} (h : sameName name token = true)
    (htoken : (Utf8.encode token).all Byte.isToken = true) :
    ∀ b ∈ Utf8.encode name, Byte.isToken b = true := by
  have hlower : ∀ b, Byte.isToken (Byte.toLower b) = Byte.isToken b := by
    refine Utf8.forall_byte (p := fun b => Byte.isToken (Byte.toLower b) = Byte.isToken b) ?_
    decide +kernel
  rw [← sameLetters_encode, Bytes.sameLetters, beq_iff_eq] at h
  intro b hb
  have hmem : Byte.toLower b ∈ (Utf8.encode token).foldCase := by
    rw [← h]
    exact List.mem_map_of_mem hb
  obtain ⟨b', hb', heq⟩ := List.mem_map.mp hmem
  rw [← hlower, ← heq, hlower]
  exact List.all_eq_true.mp htoken b' hb'

theorem encode_ne_nil_of_sameName {name other : String} (h : sameName name other = true)
    (hne : Utf8.encode other ≠ []) : Utf8.encode name ≠ [] := by
  rw [← sameLetters_encode, Bytes.sameLetters, beq_iff_eq] at h
  intro hnil
  rw [hnil] at h
  exact hne (List.map_eq_nil_iff.mp h.symm)

theorem isPlain_ofEntry {name value : String} (hne : Utf8.encode name ≠ [])
    (hname : ∀ b ∈ Utf8.encode name, Byte.isToken b = true)
    (hvalue : ∀ b ∈ Utf8.encode value, Byte.isText b = true)
    (hhead : ∀ b ∈ (Utf8.encode value).head?, Byte.isBlank b = false)
    (hlast : ∀ b ∈ (Utf8.encode value).getLast?, Byte.isBlank b = false) :
    (Field.ofEntry (name, value)).IsPlain :=
  ⟨hne, hname, hvalue, hhead, hlast⟩

namespace Framing

/-! ## Lengths -/

theorem isDigit_of_mem_toDigits {n : Nat} {c : Char} (h : c ∈ Nat.toDigits 10 n) :
    c.isDigit = true :=
  Nat.isDigit_of_mem_toDigits (by decide) (by decide) h

theorem encode_repr (n : Nat) :
    Utf8.encode n.repr = (Nat.toDigits 10 n).map fun c => c.toNat.toUInt8 := by
  rw [Utf8.encode, Nat.toList_repr]
  exact Utf8.encode_ascii fun c hc => Utf8.ascii_of_isDigit (isDigit_of_mem_toDigits hc)

theorem digit_of_mem_encode_repr {n : Nat} {b : UInt8} (h : b ∈ Utf8.encode n.repr) :
    Byte.isDigit b = true ∧ Byte.isTarget b = true ∧ Byte.isBlank b = false := by
  rw [encode_repr] at h
  obtain ⟨c, hc, rfl⟩ := List.mem_map.mp h
  exact (Utf8.byte_of_isDigit (isDigit_of_mem_toDigits hc)).2

/-- **A length reads back**, if it fits into 64 bits. -/
theorem lengthOf?_repr {n : Nat} (h : n < UInt64.size) :
    lengthOf? (Utf8.encode n.repr) = some n := by
  have hnotBlank : ∀ b ∈ Utf8.encode n.repr, Byte.isBlank b = false := fun b hb =>
    (digit_of_mem_encode_repr hb).2.2
  have htrim : Bytes.trim (Utf8.encode n.repr) = Utf8.encode n.repr :=
    Bytes.trim_eq (fun b hb => hnotBlank b (List.mem_of_mem_head? hb))
      fun b hb => hnotBlank b (List.mem_of_getLast? hb)
  have hne : Utf8.encode n.repr ≠ [] := by
    rw [encode_repr]
    simp
  have hall : (Utf8.encode n.repr).all Byte.isDigit = true :=
    List.all_eq_true.mpr fun b hb => (digit_of_mem_encode_repr hb).1
  have hdecimal : Bytes.decimalValue (Utf8.encode n.repr) = n := by
    rw [encode_repr, Bytes.decimalValue, Utf8.foldl_digits fun c hc => isDigit_of_mem_toDigits hc,
      Nat.ofDigitChars_ten_toDigits]
  rw [lengthOf?]
  simp only [htrim, hall, hdecimal, h, List.isEmpty_eq_false_iff.mpr hne, Bool.not_false,
    Bool.and_self, decide_true, if_true]

/-! ## Values of one name -/

theorem valuesOf_cons (name : String) (field : Field) (fields : List Field) :
    valuesOf name (field :: fields) =
      if field.name.sameLetters (Utf8.encode name) then field.value :: valuesOf name fields
      else valuesOf name fields := by
  rw [valuesOf, List.filter_cons]
  split <;> rfl

theorem valuesOf_ofEntry (name : String) (entries : List (String × String)) :
    valuesOf name (entries.map Field.ofEntry) =
      (entries.filter fun entry => sameName entry.1 name).map fun entry => Utf8.encode entry.2 := by
  rw [valuesOf, List.filter_map, List.map_map]
  have hsame : (fun field : Field => field.name.sameLetters (Utf8.encode name)) ∘ Field.ofEntry =
      fun entry => sameName entry.1 name := funext fun entry => sameLetters_encode entry.1 name
  rw [hsame]
  rfl

theorem valuesOf_ofEntry_eq_nil {name : String} {entries : List (String × String)}
    (h : ∀ entry ∈ entries, sameName entry.1 name = false) :
    valuesOf name (entries.map Field.ofEntry) = [] := by
  rw [valuesOf_ofEntry, List.map_eq_nil_iff, List.filter_eq_nil_iff]
  intro entry hentry
  simp [h entry hentry]

/-! ## Fields with a length -/

/-- Fields that give one length and no coding frame a body of that length. -/
theorem ofFields_of_length {fields : List Field} {n : Nat}
    (hcoding : valuesOf "Transfer-Encoding" fields = [])
    (hlength : valuesOf "Content-Length" fields = [Utf8.encode n.repr]) (hn : n < UInt64.size) :
    ofFields fields = .ok (some (.length n)) := by
  have hchunked : isChunked fields = false := by rw [isChunked, hcoding]; rfl
  have hagreed : agreedLength [Utf8.encode n.repr] = .ok (some n) := by
    simp [agreedLength, lengthOf?_repr hn]
  rw [ofFields, hchunked, hlength, hagreed]
  rfl

end Framing

/-- The length of a body can be written. -/
theorem isPlain_length (n : Nat) : (Field.ofEntry (Message.lengthName, n.repr)).IsPlain := by
  have htoken : (Utf8.encode Message.lengthName).all Byte.isToken = true := by decide
  have hsome : Utf8.encode Message.lengthName ≠ [] := by decide
  have hdigit : ∀ b ∈ Utf8.encode n.repr, Byte.isTarget b = true ∧ Byte.isBlank b = false :=
    fun b hb => (Framing.digit_of_mem_encode_repr hb).2
  exact isPlain_ofEntry hsome (List.all_eq_true.mp htoken)
    (fun b hb => Byte.isText_of_isTarget (hdigit b hb).1)
    (fun b hb => (hdigit b (List.mem_of_mem_head? hb)).2)
    fun b hb => (hdigit b (List.mem_of_getLast? hb)).2

end HttpWire
