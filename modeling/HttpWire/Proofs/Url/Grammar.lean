import HttpWire.Proofs.Url.Target
/-!
# The grammar of URL texts

Parsing accepts a text exactly if the grammar derives it: an asterisk, anything that starts with a
slash, or a scheme and an authority with anything behind them that starts with a slash, a question
mark or a number sign. What it accepts falls apart into components that make it up with their
delimiters. The stretches that are found hold them, one after the other, and the URL has them; what
is refused leaves a URL as it was.
-/

namespace HttpWire.Url

/-! ## The grammar -/

/-- The forms of a URL text. -/
inductive HasForm : List Char → Prop where
  | asterisk : HasForm ['*']
  | path (rest : List Char) : HasForm ('/' :: rest)
  | absolute {origin : Origin} {rest : List Char} (horigin : origin.WellFormed)
      (hrest : ∀ c ∈ rest.head?, c = '/' ∨ c = '?' ∨ c = '#') : HasForm (origin.text ++ rest)

/-- A text that the grammar derives: it is not empty, it holds no control byte, space or delete,
and it has one of the forms. -/
structure IsUrlText (text : String) : Prop where
  ne_empty : text ≠ ""
  bytes : ∀ b ∈ Utf8.encode text, 0x20 < b ∧ b ≠ 0x7F
  form : HasForm text.toList

theorem isTarget_iff {b : UInt8} : Byte.isTarget b = true ↔ 0x20 < b ∧ b ≠ 0x7F := by
  rw [Byte.isTarget, Bool.and_eq_true, decide_eq_true_eq, bne_iff_ne, UInt8.le_iff_toNat_le,
    UInt8.lt_iff_toNat_lt]
  rfl

/-- **A text without such bytes is a text of URL characters.** -/
theorem bytes_iff {text : String} :
    (∀ b ∈ Utf8.encode text, 0x20 < b ∧ b ≠ 0x7F) ↔ ∀ c ∈ text.toList, isUrlChar c = true := by
  simp only [← isTarget_iff]
  exact isTarget_iff_isUrlChar

theorem endsAuthority_iff {c : Char} : endsAuthority c = true ↔ c = '/' ∨ c = '?' ∨ c = '#' := by
  simp [endsAuthority, or_assoc]

/-! ## Forms of texts and of parts -/

theorem hasForm_text {parts : Parts} (h : parts.Form) : HasForm parts.text := by
  cases h with
  | asterisk => exact .asterisk
  | @path tail htail hpath =>
    obtain ⟨rest, hpath⟩ := List.head?_eq_some_iff.mp hpath
    have htext : Parts.text ⟨none, tail⟩ =
        '/' :: (rest ++ delimited '?' tail.query? ++ delimited '#' tail.fragment?) := by
      rw [Parts.text, Tail.text, hpath]
      rfl
    rw [htext]
    exact .path _
  | @absolute origin tail horigin htail hpath =>
    exact .absolute horigin fun c hc =>
      endsAuthority_iff.mp (endsAuthority_of_head? hpath c hc)

/-- Every text of a form is made up of parts. -/
theorem exists_form {text : List Char} (h : HasForm text) :
    ∃ parts : Parts, parts.text = text ∧ parts.Form := by
  cases h with
  | asterisk => exact ⟨_, rfl, .asterisk⟩
  | path rest =>
    obtain ⟨htext, htail⟩ := text_splitTail ('/' :: rest)
    refine ⟨⟨none, splitTail ('/' :: rest)⟩, htext, .path htail (head?_path ?_)⟩
    rw [htext]
    rfl
  | @absolute origin rest horigin hrest =>
    obtain ⟨htext, htail⟩ := text_splitTail rest
    have hpath := path_of_endsAuthority htail (by
      rw [htext]
      exact fun c hc => endsAuthority_iff.mpr (hrest c hc))
    refine ⟨⟨some origin, splitTail rest⟩, ?_, .absolute horigin htail hpath⟩
    rw [Parts.text, htext]

/-- **Splitting succeeds on the texts of the grammar and on no others.** -/
theorem exists_ofText?_iff (text : String) :
    (∃ parts, Parts.ofText? text.toList = some parts) ↔ IsUrlText text := by
  constructor
  · rintro ⟨parts, hparts⟩
    obtain ⟨htext, hwell⟩ := Parts.ofText?_eq_some_iff.mp hparts
    refine ⟨?_, bytes_iff.mpr ?_, ?_⟩
    · rintro rfl
      cases hparts
    · rw [htext]
      exact hwell.chars
    · rw [htext]
      exact hasForm_text hwell.form
  · rintro ⟨-, hbytes, hform⟩
    obtain ⟨parts, htext, form⟩ := exists_form hform
    refine ⟨parts, Parts.ofText?_eq_some_iff.mpr ⟨htext.symm, ?_, form⟩⟩
    rw [htext]
    exact bytes_iff.mp hbytes

/-! ## Parsing -/

/-- A URL with the components of some parts. An address literal is kept without its brackets, a
path only if it is not empty, of a query the parameters, and of a port the number, which the scheme
may imply. -/
structure HasParts (url : Url) (parts : Parts) : Prop where
  scheme : url.scheme? = parts.origin?.map fun origin => String.ofList origin.scheme
  userinfo : url.userinfo? = (parts.origin?.bind Origin.userinfo?).map String.ofList
  host : url.host? = parts.origin?.map fun origin => String.ofList origin.host.chars
  port : ∀ origin ∈ parts.origin?, ∀ digits ∈ origin.port?,
    url.rawPort.toNat = Nat.ofDigitChars 10 digits 0
  impliedPort : parts.origin?.bind Origin.port? = none →
    url.rawPort = ((url.scheme?.bind defaultPort?).getD 0)
  path : url.path? = if parts.tail.path = [] then none else some (String.ofList parts.tail.path)
  query : url.params = (parts.tail.query?.map queryParams).getD .empty
  fragment : url.fragment? = parts.tail.fragment?.map String.ofList

theorem hasParts_ofParts {parts : Parts} (h : parts.Form) : (ofParts parts).HasParts parts where
  scheme := rfl
  userinfo := rfl
  host := rfl
  port := by
    intro origin horigin digits hdigits
    have hwell : origin.WellFormed := by
      cases h with
      | asterisk => cases horigin
      | path => cases horigin
      | absolute hwell =>
        cases horigin
        exact hwell
    have hport := hwell.port digits hdigits
    have hraw := h.getD_port
    rw [Option.mem_def.mp horigin, Option.bind_some, Option.mem_def.mp hdigits, Option.map_some,
      Option.getD_some, ← Option.mem_def.mp horigin] at hraw
    show ((parts.origin?.map Origin.port).getD 0).toNat = _
    rw [← hraw, Nat.toUInt16_eq, UInt16.toNat_ofNat',
      Nat.mod_eq_of_lt (Nat.lt_succ_of_le hport.value_le)]
  impliedPort := by
    intro hnone
    have hport := h.getD_port
    rw [hnone] at hport
    exact hport.symm
  path := by
    rw [ofParts]
    simp only [List.isEmpty_iff]
  query := rfl
  fragment := rfl

/-- **Parsing accepts exactly the grammar and loses nothing.** It succeeds on the texts that the
grammar derives. Then the text is some parts joined with their delimiters, with no question mark or
number sign in the path and no number sign in the query; the stretches that are found in its bytes
hold these parts, each between characters, one after the other; and the URL has the parts as its
components. If it fails, every URL stays as it was. -/
theorem parse_recognises (text : String) :
    ((∃ url, parse text = .ok url) ↔ IsUrlText text) ∧
      (∀ url, parse text = .ok url → ∃ (fields : Fields) (parts : Parts),
        Fields.ofBytes? (Utf8.encode text) = some fields ∧
          text.toList = parts.text ∧ parts.Form ∧
          ('?' ∉ parts.tail.path ∧ '#' ∉ parts.tail.path ∧
            ∀ query ∈ parts.tail.query?, '#' ∉ query) ∧
          fields.Hold text parts ∧ url.HasParts parts) ∧
      ∀ error, parse text = .error error → ∀ url : Url, url.replaceBy text = url := by
  refine ⟨?_, ?_, ?_⟩
  · rw [← exists_ofText?_iff]
    constructor
    · rintro ⟨url, hurl⟩
      obtain ⟨parts, hparts, -⟩ := parse_eq_ok_iff.mp hurl
      exact ⟨parts, hparts⟩
    · rintro ⟨parts, hparts⟩
      exact ⟨ofParts parts, parse_eq_ok_iff.mpr ⟨parts, hparts, rfl⟩⟩
  · intro url hurl
    obtain ⟨parts, hparts, rfl⟩ := parse_eq_ok_iff.mp hurl
    obtain ⟨htext, hwell⟩ := Parts.ofText?_eq_some_iff.mp hparts
    obtain ⟨hfound, hhold⟩ := hold_of_ofText? hparts
    have htail := hwell.form.tail
    exact ⟨parts.fields, parts, hfound, htext, hwell.form,
      ⟨htail.path.1, htail.path.2, htail.query⟩, hhold, hasParts_ofParts hwell.form⟩
  · intro error herror url
    rw [replaceBy, herror]

/-- User information, an address literal, a port, and a character of two bytes in the path. -/
def framedText : String := "http://u:p@[::1]:80/ä?x=1#f"

theorem parse_framedText :
    IsUrlText framedText ∧
      ∃ url fields parts, parse framedText = .ok url ∧
        Fields.ofBytes? (Utf8.encode framedText) = some fields ∧ fields.Hold framedText parts ∧
        url.HasParts parts ∧
        fields.spans = [⟨0, 4⟩, ⟨7, 10⟩, ⟨12, 15⟩, ⟨19, 22⟩, ⟨23, 26⟩, ⟨27, 28⟩] ∧
        url.scheme? = some "http" ∧ url.userinfo? = some "u:p" ∧ url.host? = some "::1" ∧
        url.rawPort = 80 ∧ url.path? = some "/ä" ∧ url.params.entries = [("x", "1")] ∧
        url.fragment? = some "f" := by
  obtain ⟨haccepts, hcomponents, -⟩ := parse_recognises framedText
  have hurl : parse framedText = .ok
      { scheme? := some "http"
        host? := some "::1"
        rawPort := 80
        path? := some "/ä"
        fragment? := some "f"
        userinfo? := some "u:p"
        params := ⟨[("x", "1")], by decide⟩ } := by decide +kernel
  have hfields : Fields.ofBytes? (Utf8.encode framedText) = some
      { scheme? := some ⟨0, 4⟩
        userinfo? := some ⟨7, 10⟩
        host? := some ⟨12, 15⟩
        port? := some 80
        path? := some ⟨19, 22⟩
        query? := some ⟨23, 26⟩
        fragment? := some ⟨27, 28⟩ } := by decide +kernel
  obtain ⟨fields, parts, hfound, -, -, -, hhold, hparts⟩ := hcomponents _ hurl
  have hspans : fields.spans = [⟨0, 4⟩, ⟨7, 10⟩, ⟨12, 15⟩, ⟨19, 22⟩, ⟨23, 26⟩, ⟨27, 28⟩] := by
    rw [hfields] at hfound
    cases hfound
    rfl
  exact ⟨haccepts.mp ⟨_, hurl⟩, _, fields, parts, hurl, hfound, hhold, hparts, hspans, rfl, rfl,
    rfl, rfl, rfl, rfl, rfl⟩

end HttpWire.Url
