import HttpWire.Proofs.Framing.Rules
import HttpWire.Proofs.Head.Plain
import HttpWire.Proofs.Message.Receive
import HttpWire.Proofs.Message.Written
import HttpWire.Proofs.Text.Lossy
/-!
# Fields that were received

A message keeps the fields of a head as text, one of each name. All that it keeps can be written
again, and what is written says of the framing what the head said, as long as that was a length: a
field `Transfer-Encoding` is kept while the body is not.
-/

namespace HttpWire

/-! ## What is kept -/

namespace Headers

section
variable {headers : Headers} {name value other : String}

theorem liveUnder_insert_ne_nil (h : sameName name other = true) :
    liveUnder other (headers.insert name value).entries ≠ [] := by
  obtain ⟨spelling, -, hlive⟩ := liveUnder_putEntry name value headers.fields.distinct
  show liveUnder other (NameMap.putEntry name (some value) headers.fields.entries) ≠ []
  rw [← liveUnder_congr h, hlive]
  exact List.cons_ne_nil _ _

/-- Inserting a field leaves no name without one. -/
theorem liveUnder_insert_mono (h : liveUnder other headers.entries ≠ []) :
    liveUnder other (headers.insert name value).entries ≠ [] := by
  cases hsame : sameName name other with
  | true => exact liveUnder_insert_ne_nil hsame
  | false =>
    show liveUnder other (NameMap.putEntry name (some value) headers.entries) ≠ []
    rwa [liveUnder_putEntry_of_ne value hsame]

theorem liveUnder_insertFields_mono {fields : List Field}
    (h : liveUnder other headers.entries ≠ []) :
    liveUnder other (headers.insertFields fields).entries ≠ [] := by
  induction fields generalizing headers with
  | nil => exact h
  | cons field fields ih => exact ih (liveUnder_insert_mono h)

/-- Every name that a field has is kept. -/
theorem liveUnder_insertFields_ne_nil {fields : List Field} {field : Field}
    (h : field ∈ fields) (hname : sameName field.toEntry.1 other = true) :
    liveUnder other (headers.insertFields fields).entries ≠ [] := by
  induction fields generalizing headers with
  | nil => cases h
  | cons first fields ih =>
    rcases List.mem_cons.mp h with rfl | hlater
    · show liveUnder other
        ((headers.insert field.toEntry.1 field.toEntry.2).insertFields fields).entries ≠ []
      exact liveUnder_insertFields_mono (liveUnder_insert_ne_nil hname)
    · exact ih hlater

/-- What is kept under a name was there, or is the value of some field of that name. -/
theorem mem_live_insertFields {fields : List Field} {entry : String × String}
    (h : entry ∈ (headers.insertFields fields).live) :
    entry ∈ headers.live ∨
      ∃ field ∈ fields, entry.2 = field.toEntry.2 ∧ sameName entry.1 field.toEntry.1 = true := by
  induction fields generalizing headers with
  | nil => exact .inl h
  | cons first fields ih =>
    rcases ih h with hbefore | ⟨later, hlater, hentry⟩
    · rcases mem_live_insert hbefore with hold | hnew
      · exact .inl hold
      · exact .inr ⟨first, by simp, hnew⟩
    · exact .inr ⟨later, by simp [hlater], hentry⟩

end

end Headers

/-! ## Plain fields -/

section
variable {field : Field} (h : field.IsPlain)
include h

/-- The name of a plain field is kept as it is. -/
theorem Field.IsPlain.encode_name : Utf8.encode field.toEntry.1 = field.name := by
  have htoken : ∀ b, Byte.isToken b = true → b < 0x80 := Utf8.forall_byte (by decide +kernel)
  exact Utf8.encode_decodeLossy fun b hb => htoken b (h.name b hb)

/-- Which names an entry has that is kept of a field, the field tells. -/
theorem Field.IsPlain.sameName {entry : String × String}
    (hentry : HttpWire.sameName entry.1 field.toEntry.1 = true) (name : String) :
    HttpWire.sameName entry.1 name = field.name.sameLetters (Utf8.encode name) := by
  rw [sameName_trans hentry, ← sameLetters_encode, h.encode_name]

/-- **What is kept of a plain field is plain.** -/
theorem Field.IsPlain.entry {entry : String × String} (hvalue : entry.2 = field.toEntry.2)
    (hname : HttpWire.sameName entry.1 field.toEntry.1 = true) : (Field.ofEntry entry).IsPlain := by
  obtain ⟨name, value⟩ := entry
  subst hvalue
  have hsame := Utf8.sameAscii_decodeLossy field.value
  have htoken : (Utf8.encode field.toEntry.1).all Byte.isToken = true := by
    rw [h.encode_name]
    exact List.all_eq_true.mpr h.name
  have hne : Utf8.encode field.toEntry.1 ≠ [] := by
    rw [h.encode_name]
    exact h.name_ne_nil
  exact isPlain_ofEntry (encode_ne_nil_of_sameName hname hne) (isToken_of_sameName hname htoken)
    (hsame.all (fun b hb => Byte.isText_of_isTarget (Byte.isTarget_of_high hb)) h.value)
    (hsame.head (fun _ => Bytes.SameAscii.isBlank_of_high) h.value_head)
    (hsame.getLast (fun _ => Bytes.SameAscii.isBlank_of_high) h.value_last)

end

/-- **What is kept under a name** is the last value that came under it. -/
theorem Headers.get?_insertFields {fields : List Field} (hplain : ∀ field ∈ fields, field.IsPlain)
    (headers : Headers) (name : String) :
    (headers.insertFields fields).get? name =
      ((Framing.valuesOf name fields).map Utf8.decodeLossy).getLast?.or (headers.get? name) := by
  induction fields generalizing headers with
  | nil => rfl
  | cons field fields ih =>
    obtain ⟨hfield, hlater⟩ := List.forall_mem_cons.mp hplain
    have hname : sameName field.toEntry.1 name = field.name.sameLetters (Utf8.encode name) :=
      hfield.sameName (sameName_iff.mpr rfl) name
    show ((headers.insert field.toEntry.1 field.toEntry.2).insertFields fields).get? name = _
    rw [ih hlater, get?_insert, hname, Framing.valuesOf_cons]
    split
    · simp [List.getLast?_cons, Field.toEntry]
    · rfl

/-! ## What the kept fields frame -/

namespace Framing

theorem lengthOf?_of_sameAscii {x y : Bytes} (hsame : Bytes.SameAscii x y) {n : Nat}
    (h : lengthOf? x = some n) : lengthOf? y = some n := by
  have hdigits : x.trim.all Byte.isDigit = true := by
    unfold lengthOf? at h
    dsimp only at h
    split at h
    · next hlength =>
      simp only [Bool.and_eq_true] at hlength
      exact hlength.1.2
    · cases h
  have hascii : ∀ b, Byte.isDigit b = true → b < 0x80 := Utf8.forall_byte (by decide +kernel)
  have htrim : y.trim = x.trim :=
    hsame.trim.symm.eq_of_ascii fun b hb => hascii b (List.all_eq_true.mp hdigits b hb)
  rw [lengthOf?] at h ⊢
  rwa [htrim]

section
variable {fields : List Field} (hplain : ∀ field ∈ fields, field.IsPlain)
include hplain

/-- What is kept under a name, in its wire form, is the value of some field of that name up to
stretches beyond ASCII. -/
theorem exists_of_mem_valuesOf_live {name : String} {value : Bytes}
    (h : value ∈ valuesOf name ((Headers.insertFields {} fields).live.map Field.ofEntry)) :
    ∃ field ∈ fields, field.name.sameLetters (Utf8.encode name) = true ∧
      Bytes.SameAscii field.value value := by
  rw [valuesOf_ofEntry] at h
  obtain ⟨entry, hentry, rfl⟩ := List.mem_map.mp h
  obtain ⟨hlive, hname⟩ := List.mem_filter.mp hentry
  rcases Headers.mem_live_insertFields hlive with hnone | ⟨field, hfield, hvalue, hsame⟩
  · cases hnone
  · refine ⟨field, hfield, ?_, ?_⟩
    · rwa [← (hplain field hfield).sameName hsame]
    · rw [hvalue]
      exact Utf8.sameAscii_decodeLossy field.value

/-- No chunks are kept where none were asked for. -/
theorem endsInChunked_of_live
    (h : EndsInChunked ((Headers.insertFields {} fields).live.map Field.ofEntry)) :
    EndsInChunked fields := by
  obtain ⟨value, hvalue, last, hlast, hkeyword⟩ := someValue_iff.mp h
  obtain ⟨field, hfield, hname, hsame⟩ := exists_of_mem_valuesOf_live hplain hvalue
  obtain ⟨element, helement, hsameLast⟩ := exists_getLast?_of_forall₂ hsame.listElements hlast
  have hword : ∀ b ∈ (Utf8.encode "chunked").foldCase, b < 0x80 :=
    List.all_iff_forall_prop.mp (by decide)
  refine ⟨field, hfield, hname, element, helement, ?_⟩
  rwa [hsameLast.eq_of_sameLetters hword hkeyword]

/-- A length that was agreed on is kept. -/
theorem lengths_of_live {n : Nat} (hsome : valuesOf "Content-Length" fields ≠ [])
    (hall : ∀ value ∈ valuesOf "Content-Length" fields, lengthOf? value = some n) :
    agreedLength (valuesOf "Content-Length"
      ((Headers.insertFields {} fields).live.map Field.ofEntry)) = .ok (some n) := by
  refine agreedLength_of_forall ?_ fun value hvalue => ?_
  · obtain ⟨value, hvalue⟩ := List.exists_mem_of_ne_nil _ hsome
    obtain ⟨field, hfield, hname, -⟩ := mem_valuesOf.mp hvalue
    have hsame : sameName field.toEntry.1 "Content-Length" = true := by
      rwa [(hplain field hfield).sameName (sameName_iff.mpr rfl)]
    rw [valuesOf_ofEntry]
    exact fun hnil =>
      Headers.liveUnder_insertFields_ne_nil hfield hsame (List.map_eq_nil_iff.mp hnil)
  · obtain ⟨field, hfield, hname, hsame⟩ := exists_of_mem_valuesOf_live hplain hvalue
    exact lengthOf?_of_sameAscii hsame
      (hall field.value (mem_valuesOf.mpr ⟨field, hfield, hname, rfl⟩))

end

end Framing

namespace Message

open Framing (EndsInChunked valuesOf ofFields agreedLength)

/-- The length that is written behind the live fields asks for no chunks. -/
theorem endsInChunked_of_writtenFields {m : Message}
    (h : EndsInChunked (m.writtenFields.map Field.ofEntry)) :
    EndsInChunked (m.headers.live.map Field.ofEntry) := by
  obtain ⟨field, hfield, hname, hlast⟩ := h
  rw [writtenFields] at hfield
  split at hfield
  · exact ⟨field, hfield, hname, hlast⟩
  · rw [List.map_append, List.mem_append] at hfield
    rcases hfield with hlive | hlength
    · exact ⟨field, hlive, hname, hlast⟩
    · obtain rfl := List.mem_singleton.mp hlength
      have hother : ¬ sameName lengthName "Transfer-Encoding" = true := by decide
      rw [Field.ofEntry, sameLetters_encode] at hname
      exact (hother hname).elim

section
variable {m : Message} {fields : List Field} (hplain : ∀ field ∈ fields, field.IsPlain)
  (hheaders : m.headers = .insertFields {} fields)
include hplain hheaders

/-- **All that a message keeps of plain fields can be written.** -/
theorem isPlain_of_mem_writtenFields {entry : String × String} (h : entry ∈ m.writtenFields) :
    (Field.ofEntry entry).IsPlain := by
  have hlive : entry ∈ m.headers.live → (Field.ofEntry entry).IsPlain := by
    rw [hheaders]
    intro hlive
    rcases Headers.mem_live_insertFields hlive with hnone | ⟨field, hfield, hvalue, hname⟩
    · cases hnone
    · exact (hplain field hfield).entry hvalue hname
  rw [writtenFields] at h
  split at h
  · exact hlive h
  · rcases List.mem_append.mp h with hold | hlength
    · exact hlive hold
    · obtain rfl := List.mem_singleton.mp hlength
      exact isPlain_length m.body.size

/-- Where the head gave no length, that of the body is written. -/
theorem agreedLength_of_unsized (hnone : valuesOf "Content-Length" fields = [])
    (hsize : m.body.size < UInt64.size) :
    agreedLength (valuesOf "Content-Length" (m.writtenFields.map Field.ofEntry)) =
      .ok (some m.body.size) := by
  have hlive : ∀ entry ∈ m.headers.live, sameName entry.1 lengthName = false := by
    intro entry hentry
    rw [Bool.eq_false_iff]
    intro hname
    -- A length that is kept would be one of the head.
    have hmem : Utf8.encode entry.2 ∈
        valuesOf "Content-Length" (m.headers.live.map Field.ofEntry) := by
      rw [Framing.valuesOf_ofEntry]
      exact List.mem_map_of_mem (List.mem_filter.mpr ⟨hentry, hname⟩)
    rw [hheaders] at hmem
    obtain ⟨field, hfield, hlength, -⟩ := Framing.exists_of_mem_valuesOf_live hplain hmem
    have hvalue := Framing.mem_valuesOf.mpr ⟨field, hfield, hlength, rfl⟩
    rw [hnone] at hvalue
    cases hvalue
  have hany : m.headers.live.any (fun field => sameName field.1 lengthName) = false := by
    rw [List.any_eq_false]
    intro field hfield
    simp [hlive field hfield]
  have hvalues : valuesOf "Content-Length" (m.writtenFields.map Field.ofEntry) =
      [Utf8.encode (Nat.repr m.body.size)] := by
    have hsame : sameName lengthName "Content-Length" = true := by decide
    have hfilter : m.headers.live.filter (fun entry => sameName entry.1 "Content-Length") = [] :=
      List.filter_eq_nil_iff.mpr fun entry hentry => Bool.eq_false_iff.mp (hlive entry hentry)
    rw [writtenFields, hany, Framing.valuesOf_ofEntry]
    simp [List.filter_append, hfilter, hsame]
  rw [hvalues]
  refine Framing.agreedLength_of_forall (List.cons_ne_nil _ _) fun value hvalue => ?_
  rw [List.mem_singleton.mp hvalue]
  exact Framing.lengthOf?_repr hsize

/-- Where the head gave a length, that length is written. -/
theorem agreedLength_of_sized {n : Nat} (hsome : valuesOf "Content-Length" fields ≠ [])
    (hall : ∀ value ∈ valuesOf "Content-Length" fields, Framing.lengthOf? value = some n) :
    agreedLength (valuesOf "Content-Length" (m.writtenFields.map Field.ofEntry)) =
      .ok (some n) := by
  have hkept := Framing.lengths_of_live hplain hsome hall
  rw [← hheaders] at hkept
  have hany : m.headers.live.any (fun field => sameName field.1 lengthName) = true := by
    by_contra hnone
    rw [Bool.not_eq_true, List.any_eq_false] at hnone
    have hvalues : valuesOf "Content-Length" (m.headers.live.map Field.ofEntry) = [] :=
      Framing.valuesOf_ofEntry_eq_nil fun entry hentry =>
        Bool.eq_false_iff.mpr (hnone entry hentry)
    rw [hvalues] at hkept
    cases hkept
  rw [writtenFields, hany]
  exact hkept

/-- **The written fields ask for the framing that the head asked for**, if that was not by chunks,
and for the length of the body if it asked for none. -/
theorem ofFields_writtenFields_of_fields (hchunked : ¬ EndsInChunked fields) {asked : Option Framing}
    (h : ofFields fields = .ok asked) (hsize : asked = none → m.body.size < UInt64.size) :
    ofFields (m.writtenFields.map Field.ofEntry) =
      .ok (some (asked.getD (.length m.body.size))) := by
  have hwritten : ¬ EndsInChunked (m.writtenFields.map Field.ofEntry) := by
    intro hends
    have hlive := endsInChunked_of_writtenFields hends
    rw [hheaders] at hlive
    exact hchunked (Framing.endsInChunked_of_live hplain hlive)
  rw [ofFields, if_neg (mt Framing.isChunked_iff.mp hchunked)] at h
  rw [ofFields, if_neg (mt Framing.isChunked_iff.mp hwritten)]
  cases hagreed : agreedLength (valuesOf "Content-Length" fields) with
  | error error =>
    rw [hagreed] at h
    cases h
  | ok length? =>
    rw [hagreed] at h
    cases h
    obtain ⟨rfl, hnone⟩ | ⟨n, rfl, hsome, hall⟩ := Framing.agreedLength_eq_ok hagreed
    · rw [agreedLength_of_unsized hplain hheaders hnone (hsize rfl)]
      rfl
    · rw [agreedLength_of_sized hplain hheaders hsome hall]
      rfl

end

end Message

end HttpWire
