import HttpWire.Proofs.Url.Fields
/-!
# Targets in origin form

A target of a request that starts with a slash is a URL, without an origin and so without user
information.
-/

namespace HttpWire.Url

/-- The bytes of a target are those of URL characters. -/
theorem isTarget_iff_isUrlChar {text : String} :
    (∀ b ∈ Utf8.encode text, Byte.isTarget b = true) ↔
      ∀ c ∈ text.toList, isUrlChar c = true := by
  rw [← List.all_eq_true, ← List.all_eq_true, ← Utf8.all_bytesOf sameClass_url]
  rfl

/-- **Every target in origin form is a URL**, one without user information. -/
theorem parse_of_slash {text : String} (hall : ∀ b ∈ Utf8.encode text, Byte.isTarget b = true)
    (hslash : (Utf8.encode text).head? = some 0x2F) :
    ∃ url, parse text = .ok url ∧ url.userinfo? = none := by
  obtain ⟨rest, hrest⟩ := List.head?_eq_some_iff.mp
    ((Utf8.head?_bytesOf_eq_some (c := '/') (by decide)).mp hslash)
  have hchars : ('/' :: rest).all isUrlChar = true := by
    rw [← hrest]
    exact List.all_eq_true.mpr (isTarget_iff_isUrlChar.mp hall)
  refine ⟨ofParts { origin? := none, tail := splitTail ('/' :: rest) }, ?_, rfl⟩
  rw [parse_eq, hrest, ofText?_of_slash hchars]

end HttpWire.Url
