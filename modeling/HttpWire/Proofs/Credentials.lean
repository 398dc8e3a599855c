import HttpWire.Credentials
import HttpWire.Proofs.Span
import HttpWire.Proofs.Text.Base64
import Mathlib.Data.Option.Basic
/-!
# Credentials on the wire

User information survives its way through a field value, as base64 reads back as the bytes that were
written. The value is visible text that neither starts nor ends in a blank, unless the user
information is empty.
-/

namespace HttpWire.Credentials

/-! ## User information -/

/-- Base64 is visible ASCII text. -/
theorem visible_of_isCode {c : Char} (h : Base64.IsCode c) :
    c.toNat < 0x80 ∧ Text.isBlank c = false ∧ Byte.isTarget c.toNat.toUInt8 = true := by
  have hsymbol : ∀ n < 64, (Base64.symbol n).toNat < 0x80 ∧
      Text.isBlank (Base64.symbol n) = false ∧
        Byte.isTarget (Base64.symbol n).toNat.toUInt8 = true := by
    decide +kernel
  rcases h with rfl | ⟨n, hn, rfl⟩
  · decide
  · exact hsymbol n hn

theorem trimBlanks_encode (bytes : Bytes) :
    Text.trimBlanks (Base64.encode bytes) = Base64.encode bytes := by
  have hnone : ∀ c ∈ Base64.encode bytes, Text.isBlank c = false := fun c hc =>
    (visible_of_isCode (Base64.isCode_of_mem_encode hc)).2.1
  have hdrop : ∀ {text : List Char}, (∀ c ∈ text, Text.isBlank c = false) →
      text.dropWhile Text.isBlank = text := by
    intro text htext
    exact dropWhile_of_head fun c hc => htext c (List.mem_of_mem_head? hc)
  rw [Text.trimBlanks, hdrop hnone, hdrop fun c hc => hnone c (List.mem_reverse.mp hc),
    List.reverse_reverse]

/-- Whether a field value names a user: it is the word and the space, and behind them, up to blanks
around it, the base64 of the text. -/
def Names (value userinfo : String) : Prop :=
  ∃ text, value.toList = scheme ++ text ∧
    Text.trimBlanks text = Base64.encode (Utf8.encode userinfo)

/-- **What is read of a field value** is whom it names. -/
theorem decode?_eq_some_iff {value userinfo : String} :
    decode? value = some userinfo ↔ Names value userinfo := by
  constructor
  · intro h
    obtain ⟨_, hguard, h⟩ := Option.bind_eq_some_iff.mp h
    obtain ⟨bytes, hbytes, htext⟩ := Option.bind_eq_some_iff.mp h
    have hscheme : scheme.isPrefixOf value.toList = true := (Option.guard_eq_some' _).mp hguard
    obtain ⟨text, hvalue⟩ := List.isPrefixOf_iff_prefix.mp hscheme
    rw [← hvalue, List.drop_left, Base64.decode?_eq_some_iff] at hbytes
    rw [Utf8.decode?_eq_some_iff] at htext
    exact ⟨text, hvalue.symm, by rw [hbytes, htext]⟩
  · rintro ⟨text, hvalue, htrim⟩
    have hscheme : scheme.isPrefixOf (scheme ++ text) = true := by
      rw [List.isPrefixOf_iff_prefix]
      exact List.prefix_append _ _
    have hguard : (guard (scheme.isPrefixOf (scheme ++ text) = true) : Option Unit) = some () :=
      (Option.guard_eq_some' ()).mpr hscheme
    rw [decode?, hvalue, hguard, List.drop_left, htrim]
    show (Base64.decode? _).bind _ = _
    rw [Base64.decode?_encode]
    exact Utf8.decode?_encode userinfo

/-- **User information survives being written.** -/
theorem decode?_encode (userinfo : String) : decode? (encode userinfo) = some userinfo :=
  decode?_eq_some_iff.mpr ⟨_, String.toList_ofList .., trimBlanks_encode _⟩

/-! ## The field value -/

/-- The field value is ASCII text. -/
theorem text_of_mem_value {userinfo : String} {c : Char}
    (h : c ∈ scheme ++ Base64.encode (Utf8.encode userinfo)) :
    c.toNat < 0x80 ∧ Byte.isText c.toNat.toUInt8 = true := by
  have hscheme : scheme.all (fun c => c.toNat < 0x80 && Byte.isText c.toNat.toUInt8) = true := by
    decide
  rcases List.mem_append.mp h with hmem | hmem
  · simpa using List.all_eq_true.mp hscheme c hmem
  · obtain ⟨hascii, -, htarget⟩ := visible_of_isCode (Base64.isCode_of_mem_encode hmem)
    exact ⟨hascii, Byte.isText_of_isTarget htarget⟩

theorem encode_encode (userinfo : String) : Utf8.encode (encode userinfo) =
    (scheme ++ Base64.encode (Utf8.encode userinfo)).map fun c => c.toNat.toUInt8 := by
  rw [encode, Utf8.encode, String.toList_ofList]
  exact Utf8.encode_ascii fun c hc => (text_of_mem_value hc).1

theorem isText_of_mem_encode {userinfo : String} :
    ∀ b ∈ Utf8.encode (encode userinfo), Byte.isText b = true := by
  rw [encode_encode]
  intro b hb
  obtain ⟨c, hc, rfl⟩ := List.mem_map.mp hb
  exact (text_of_mem_value hc).2

theorem head_encode (userinfo : String) :
    ∀ b ∈ (Utf8.encode (encode userinfo)).head?, Byte.isBlank b = false := by
  rw [encode_encode]
  intro b hb
  cases hb
  decide

/-- Of the base64 of nothing only the blank before it would be left. -/
theorem last_encode {userinfo : String} (h : userinfo ≠ "") :
    ∀ b ∈ (Utf8.encode (encode userinfo)).getLast?, Byte.isBlank b = false := by
  have hbytes : Utf8.encode userinfo ≠ [] := by
    intro hnil
    have hempty : Utf8.encode userinfo = Utf8.encode "" := hnil
    exact h (Utf8.encode_injective hempty)
  have hne : Base64.encode (Utf8.encode userinfo) ≠ [] := Base64.encode_ne_nil hbytes
  have htarget : ∀ b, Byte.isTarget b = true → Byte.isBlank b = false := by
    refine Utf8.forall_byte (p := fun b => Byte.isTarget b = true → Byte.isBlank b = false) ?_
    decide +kernel
  rw [encode_encode, List.map_append, List.getLast?_append, List.getLast?_map,
    List.getLast?_eq_some_getLast hne]
  intro b hb
  cases hb
  have hcode := Base64.isCode_of_mem_encode (List.getLast_mem hne)
  exact htarget _ (visible_of_isCode hcode).2.2

end HttpWire.Credentials
