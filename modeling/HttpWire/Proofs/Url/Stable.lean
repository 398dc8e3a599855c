import HttpWire.Proofs.Url.Grammar
import HttpWire.Proofs.Url.Text
/-!
# URLs written out and read again

A URL that was read from a text can be written, if its query is free of escapes, and it stays what
it is when it is read again. There is one exception: a port 0 stands for none, and what stands for
none reads 80 in a URL but 443 in a text of the scheme `https`.
-/

namespace HttpWire.Url

/-! ## Texts of what was read -/

/-- A query without escapes is read as parameters that can be written again. -/
theorem plain_of_mem_queryParams {query : List Char}
    (hchars : ∀ c ∈ query, isUrlChar c = true ∧ c ≠ '#') (hescape : '%' ∉ query ∧ '+' ∉ query)
    {param : String × String} (h : param ∈ (queryParams query).entries) :
    IsKey param.1 ∧ ∀ c ∈ param.2.toList, isUrlChar c = true ∧ c ∉ ['%', '+', '&', '#'] := by
  obtain ⟨⟨keyed, hkeyed, hkey⟩, valued, hvalued, hvalue⟩ := mem_queryParams h
  obtain ⟨hkeyPair, hkeySub⟩ := isPair_of_mem_queryPairs hkeyed
  obtain ⟨hvaluePair, hvalueSub⟩ := isPair_of_mem_queryPairs hvalued
  rw [pairText, List.forall_mem_append] at hkeySub
  rw [pairText, List.forall_mem_append, List.forall_mem_cons] at hvalueSub
  have hplain : '%' ∉ valued.2 ∧ '+' ∉ valued.2 :=
    ⟨fun hmem => hescape.1 (hvalueSub.2.2 _ hmem), fun hmem => hescape.2 (hvalueSub.2.2 _ hmem)⟩
  have hkeyText : param.1.toList = keyed.1 := by rw [hkey, String.toList_ofList]
  have hvalueText : param.2.toList = valued.2 := by
    rw [hvalue, Percent.decode_of_plain (by rwa [String.toList_ofList]), String.toList_ofList]
  constructor
  · refine ⟨hkeyText ▸ hkeyPair.key_ne_nil, fun c hc => ?_⟩
    rw [hkeyText] at hc
    obtain ⟨hchar, hnumber⟩ := hchars c (hkeySub.1 c hc)
    exact ⟨hchar, fun heq => hkeyPair.key.1 (heq ▸ hc), fun heq => hkeyPair.key.2 (heq ▸ hc),
      hnumber⟩
  · intro c hc
    rw [hvalueText] at hc
    obtain ⟨hchar, hnumber⟩ := hchars c (hvalueSub.2.2 c hc)
    refine ⟨hchar, ?_⟩
    simp only [List.mem_cons, List.not_mem_nil, or_false, not_or]
    exact ⟨fun heq => hplain.1 (heq ▸ hc), fun heq => hplain.2 (heq ▸ hc),
      fun heq => hvaluePair.value (heq ▸ hc), hnumber⟩

/-- A path that is set is the path of the text, and that is not empty. -/
theorem path_of_ofParts {parts : Parts} {path : String} (h : path ∈ (ofParts parts).path?) :
    path.toList = parts.tail.path ∧ parts.tail.path ≠ [] := by
  simp only [ofParts] at h
  split at h
  · cases h
  · next hne =>
    cases h
    exact ⟨String.toList_ofList, by simpa using hne⟩

theorem plain_of_mem_params {parts : Parts} (htail : parts.tail.Plain)
    (hquery : ∀ query ∈ parts.tail.query?, '%' ∉ query ∧ '+' ∉ query) :
    ∀ param ∈ (ofParts parts).params.entries,
      IsKey param.1 ∧ ∀ c ∈ param.2.toList, isUrlChar c = true ∧ c ∉ ['%', '+', '&', '#'] := by
  intro param hmem
  rw [ofParts] at hmem
  cases hset : parts.tail.query? with
  | none =>
    simp only [hset] at hmem
    cases hmem
  | some query =>
    simp only [hset, Option.map_some, Option.getD_some] at hmem
    exact plain_of_mem_queryParams (htail.query query hset) (hquery query hset) hmem

theorem hasTarget_ofParts {parts : Parts} (htail : parts.tail.Plain)
    (hslash : parts.tail.path = [] ∨ parts.tail.path.head? = some '/')
    (hquery : ∀ query ∈ parts.tail.query?, '%' ∉ query ∧ '+' ∉ query) :
    HasTarget (ofParts parts) where
  slash := by
    intro path hset
    obtain ⟨heq, hne⟩ := path_of_ofParts hset
    rw [heq]
    exact hslash.resolve_left hne
  path := by
    intro path hset
    rw [(path_of_ofParts hset).1]
    exact htail.path
  keys := fun param hmem => (plain_of_mem_params htail hquery param hmem).1
  fragment := by
    intro fragment hset
    obtain ⟨chars, hfragment, rfl⟩ := Option.map_eq_some_iff.mp hset
    rw [String.toList_ofList]
    exact htail.fragment chars hfragment

/-- **A URL that was read from a text has a text again**, if no escape is in its query. -/
theorem hasText_ofParts {origin : Origin} {tail : Tail}
    (h : Parts.WellFormed ⟨some origin, tail⟩)
    (hquery : ∀ query ∈ tail.query?, '%' ∉ query ∧ '+' ∉ query) :
    HasText (ofParts ⟨some origin, tail⟩) := by
  obtain ⟨hchars, form⟩ := h
  rw [Parts.text, List.forall_mem_append] at hchars
  cases form with
  | absolute horigin htail hslash =>
    have hplain : tail.Plain := Tail.plain_iff.mpr ⟨htail, hchars.2⟩
    refine ⟨fun scheme hset => ?_, ⟨_, rfl, isHostText_chars horigin.host⟩,
      hasTarget_ofParts hplain hslash hquery,
      fun param hmem => (plain_of_mem_params hplain hquery param hmem).2⟩
    cases hset
    rw [String.toList_ofList]
    exact ⟨horigin.scheme_ne_nil, horigin.scheme⟩

/-! ## Ports -/

/-- An origin that gives the port 0, the number that stands for none. -/
def Origin.GivesNoPort (origin : Origin) : Prop :=
  ∃ digits ∈ origin.port?, Nat.ofDigitChars 10 digits 0 = 0

theorem defaultPort?_of_https {scheme : String} (h : sameName scheme "https" = true) :
    defaultPort? scheme = some 443 := by
  have hhttp : sameName scheme "http" = false := (sameName_trans h).trans (by decide)
  simp [defaultPort?, hhttp, h]

/-- Among the ports that a scheme implies only that of `https` differs from the port that a URL
without one reads. -/
theorem defaultPort?_of_not_https {scheme : String} (h : sameName scheme "https" = false) :
    defaultPort? scheme = some 80 ∨ defaultPort? scheme = none := by
  cases hhttp : sameName scheme "http" <;> simp [defaultPort?, hhttp, h]

/-- A URL in which the implied port is put reads the same port as before, unless there was none to
read and the scheme is `https`. -/
theorem port_of_impliedPort {url read : Url} (h : read.rawPort = url.impliedPort) :
    read.port = if sameName url.scheme "https" = true ∧ url.rawPort = 0 then 443 else url.port := by
  rw [port, h, impliedPort, port]
  by_cases hzero : url.rawPort = 0
  · cases hhttps : sameName url.scheme "https" with
    | true => simp [hzero, defaultPort?_of_https hhttps]
    | false =>
      rcases defaultPort?_of_not_https hhttps with hport | hport
      · simp [hzero, hport]
      · simp [hzero, hport]
  · simp [hzero]

theorem Origin.port_eq_zero_iff {origin : Origin} (h : origin.WellFormed)
    (hscheme : sameName (String.ofList origin.scheme) "https" = true) :
    origin.port = 0 ↔ origin.GivesNoPort := by
  rw [Origin.port, GivesNoPort]
  cases hport : origin.port? with
  | none => simp [defaultPort?_of_https hscheme]
  | some digits =>
    have hdigits := h.port digits hport
    have hle := hdigits.value_le
    have hnumber : (Nat.ofDigitChars 10 digits 0).toUInt16 = 0 ↔
        Nat.ofDigitChars 10 digits 0 = 0 := by
      rw [← UInt16.toNat_inj]
      simp
      omega
    simp [portNumber?_eq_some hdigits, hnumber]

/-! ## Stability -/

/-- **Writing out a URL that was read from a text, and reading it again, changes nothing**, if no
escape is in its query: the scheme, the host, the path, the parameters and the fragment stay, and
so does the port, unless a text of the scheme `https` gives the port 0. That stands for none,
which reads 80, and it is not written, where the scheme implies 443. -/
theorem parse_text_stable {text : String} {origin : Origin} {tail : Tail}
    (hsplit : Parts.ofText? text.toList = some ⟨some origin, tail⟩)
    (hquery : ∀ query ∈ tail.query?, '%' ∉ query ∧ '+' ∉ query) :
    ∃ url read, parse text = .ok url ∧ parse url.text = .ok read ∧ SameButPort url read ∧
      (sameName url.scheme "https" = true ∧ origin.GivesNoPort →
        url.port = 80 ∧ read.port = 443) ∧
      (¬ (sameName url.scheme "https" = true ∧ origin.GivesNoPort) → read.port = url.port) := by
  obtain ⟨-, hwell⟩ := Parts.ofText?_eq_some_iff.mp hsplit
  have horigin : origin.WellFormed := by
    cases hwell.form with
    | absolute horigin _ _ => exact horigin
  have hread := parse_text (hasText_ofParts hwell hquery)
  refine ⟨_, _, parse_eq_ok_iff.mpr ⟨_, hsplit, rfl⟩, hread, ⟨rfl, rfl, rfl, rfl, rfl⟩, ?_, ?_⟩
  · rintro ⟨hhttps, hzero⟩
    have hnone : (ofParts ⟨some origin, tail⟩).rawPort = 0 :=
      (Origin.port_eq_zero_iff horigin hhttps).mpr hzero
    refine ⟨by rw [port, if_pos hnone], ?_⟩
    rw [port_of_impliedPort rfl, if_pos ⟨hhttps, hnone⟩]
  · intro hother
    rw [port_of_impliedPort rfl, if_neg]
    rintro ⟨hhttps, hnone⟩
    exact hother ⟨hhttps, (Origin.port_eq_zero_iff horigin hhttps).mp hnone⟩

/-- An address literal without a colon, a port with zeros in front, two spellings of one key and a
piece that is no parameter. -/
def looseText : String := "https://u@[a.b]:08443?k=1&K=2&cut#"

/-- What `looseText` falls apart into. -/
def looseParts : Origin × Tail :=
  ({ scheme := "https".toList
     userinfo? := some ['u']
     host := .literal "a.b".toList
     port? := some "08443".toList },
    { path := []
      query? := some "k=1&K=2&cut".toList
      fragment? := some [] })

theorem parse_text_looseText :
    (Parts.ofText? looseText.toList = some ⟨some looseParts.1, looseParts.2⟩ ∧
      ∀ query ∈ looseParts.2.query?, '%' ∉ query ∧ '+' ∉ query) ∧
      ∃ url read, parse looseText = .ok url ∧ parse url.text = .ok read ∧
        SameButPort url read ∧ read.port = url.port := by
  have hsplit : Parts.ofText? looseText.toList = some ⟨some looseParts.1, looseParts.2⟩ := by decide
  have hquery : ∀ query ∈ looseParts.2.query?, '%' ∉ query ∧ '+' ∉ query := by decide
  have hport : ¬ looseParts.1.GivesNoPort := by
    rintro ⟨digits, hdigits, hzero⟩
    cases hdigits
    exact absurd hzero (by decide)
  obtain ⟨url, read, hurl, hread, hsame, -, hstays⟩ := parse_text_stable hsplit hquery
  exact ⟨⟨hsplit, hquery⟩, url, read, hurl, hread, hsame, hstays fun h => hport h.2⟩

/-- With the scheme `https` the port 0 does not stay. -/
theorem port_of_zeroPortText :
    ∃ origin tail url read,
      Parts.ofText? "https://h:0/".toList = some ⟨some origin, tail⟩ ∧ tail.query? = none ∧
        parse "https://h:0/" = .ok url ∧ url.text = "https://h/" ∧ parse url.text = .ok read ∧
        url.port = 80 ∧ read.port = 443 := by
  refine ⟨⟨"https".toList, none, .name ['h'], some ['0']⟩, ⟨['/'], none, none⟩,
    { scheme? := some "https", host? := some "h", path? := some "/" },
    { scheme? := some "https", host? := some "h", rawPort := 443, path? := some "/" }, ?_⟩
  decide

end HttpWire.Url
