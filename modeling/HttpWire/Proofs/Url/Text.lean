import HttpWire.Proofs.Url.RoundTrip
/-!
# URLs read back

The text of a URL falls apart into the parts that it was made of, so parsing it gives the URL back,
with the port that its scheme implies if none is set. The host, its brackets and the port are
found again because each is written in characters that the splitter looks for nothing in.
-/

namespace HttpWire.Url

/-! ## Characters -/

theorem isHostChar_of_isAlphanum {c : Char} (h : c.isAlphanum = true) : isHostChar c = true := by
  simp [isHostChar, h]

/-- Without its colons an address literal is a name. -/
theorem isHostChar_of_isLiteralChar {c : Char} (h : isLiteralChar c = true) :
    c = ':' ∨ isHostChar c = true := by
  have hascii := ascii_of_isLiteralChar h
  revert h
  refine Utf8.forall_ascii (p := fun c => isLiteralChar c = true → c = ':' ∨ isHostChar c = true)
    ?_ hascii
  decide +kernel

theorem isUrlChar_of_isHostChar {c : Char} (h : isHostChar c = true) : isUrlChar c = true := by
  have hascii := ascii_of_isHostChar h
  revert h
  refine Utf8.forall_ascii (p := fun c => isHostChar c = true → isUrlChar c = true) ?_ hascii
  decide +kernel

theorem isUrlChar_of_isLiteralChar {c : Char} (h : isLiteralChar c = true) :
    isUrlChar c = true := by
  rcases isHostChar_of_isLiteralChar h with rfl | hhost
  · decide
  · exact isUrlChar_of_isHostChar hhost

theorem Host.isUrlChar_of_mem {host : Host} (h : host.WellFormed) :
    ∀ c ∈ host.text, isUrlChar c = true := by
  intro c hc
  cases host with
  | name chars => exact isUrlChar_of_isHostChar ((Host.wellFormed_name.mp h).2 c hc)
  | literal chars =>
    rw [Host.text, List.mem_append, List.mem_cons, List.mem_singleton] at hc
    rcases hc with (rfl | hmem) | rfl
    · decide
    · exact isUrlChar_of_isLiteralChar ((Host.wellFormed_literal.mp h).2 c hmem)
    · decide

/-- An origin is made of URL characters, as long as it names no user. -/
theorem Origin.isUrlChar_of_mem {origin : Origin} (h : origin.WellFormed)
    (huserinfo : origin.userinfo? = none) : ∀ c ∈ origin.text, isUrlChar c = true := by
  have hscheme : ∀ c ∈ origin.scheme, isUrlChar c = true := fun c hc =>
    isUrlChar_of_isHostChar (isHostChar_of_isAlphanum (by simp [Char.isAlphanum, h.scheme c hc]))
  have hport : ∀ c ∈ delimited ':' origin.port?, isUrlChar c = true := by
    cases hdigits : origin.port? with
    | none => exact fun c hc => absurd hc List.not_mem_nil
    | some digits =>
      rw [delimited, List.forall_mem_cons]
      refine ⟨by decide, fun c hc => ?_⟩
      have hdigit := (h.port digits hdigits).digit c hc
      exact isUrlChar_of_isHostChar (isHostChar_of_isAlphanum (by simp [Char.isAlphanum, hdigit]))
  rw [Origin.text, huserinfo, List.append_nil]
  simp only [List.forall_mem_append]
  exact ⟨⟨⟨hscheme, List.all_eq_true.mp (by decide)⟩, Host.isUrlChar_of_mem h.host⟩, hport⟩

/-! ## Hosts and ports -/

/-- The host that is written for a stored one: a colon shows that it is an address literal. -/
def Host.ofText (host : String) : Host :=
  if ':' ∈ host.toList then .literal host.toList else .name host.toList

/-- A stored host that can be written: a name, or an address literal that its colon shows. -/
def IsHostText (host : String) : Prop :=
  (Host.name host.toList).WellFormed ∨ ':' ∈ host.toList ∧ (Host.literal host.toList).WellFormed

instance (host : String) : Decidable (IsHostText host) :=
  inferInstanceAs (Decidable (_ ∨ _))

theorem Host.chars_ofText (host : String) : (Host.ofText host).chars = host.toList := by
  rw [Host.ofText]
  split <;> rfl

theorem Host.text_ofText (host : String) : (Host.ofText host).text = hostText host := by
  rw [Host.ofText, hostText]
  simp only [List.contains_iff_mem]
  split <;> rfl

theorem Host.wellFormed_ofText {host : String} (h : IsHostText host) :
    (Host.ofText host).WellFormed := by
  rw [Host.ofText]
  rcases h with hname | ⟨hcolon, hliteral⟩
  · have hcolon : ':' ∉ host.toList :=
      not_mem_of_class (Host.wellFormed_name.mp hname).2 (by decide)
    rw [if_neg hcolon]
    exact hname
  · rw [if_pos hcolon]
    exact hliteral

/-- **A host that was read can be written.** An address literal without a colon is written as the
name that it also is. -/
theorem isHostText_chars {host : Host} (h : host.WellFormed) :
    IsHostText (String.ofList host.chars) := by
  cases host with
  | name chars =>
    refine .inl ?_
    rw [Host.chars, String.toList_ofList]
    exact h
  | literal chars =>
    rw [IsHostText, Host.chars, String.toList_ofList]
    by_cases hcolon : ':' ∈ chars
    · exact .inr ⟨hcolon, h⟩
    · obtain ⟨hne, hchars⟩ := Host.wellFormed_literal.mp h
      refine .inl (Host.wellFormed_name.mpr ⟨hne, fun c hc => ?_⟩)
      rcases isHostChar_of_isLiteralChar (hchars c hc) with rfl | hhost
      · exact absurd hc hcolon
      · exact hhost

/-- The digits that are written for a port, if any are. -/
def portDigits? (scheme : String) (port : UInt16) : Option (List Char) :=
  if port = 0 || defaultPort? scheme == some port then none else some (Nat.toDigits 10 port.toNat)

theorem portText_eq (scheme : String) (port : UInt16) :
    portText scheme port = delimited ':' (portDigits? scheme port) := by
  rw [portText, portDigits?]
  split <;> rfl

theorem isPortText_toDigits (port : UInt16) : IsPortText (Nat.toDigits 10 port.toNat) := by
  have hport : port.toNat < 65536 := port.toNat_lt
  refine ⟨Nat.toDigits_ne_nil, ?_, ?_, ?_⟩
  · rw [Nat.length_toDigits_le_iff (by decide) (by decide)]
    omega
  · exact fun c hc => Nat.isDigit_of_mem_toDigits (by decide) (by decide) hc
  · rw [Nat.ofDigitChars_ten_toDigits]
    omega

theorem portNumber?_toDigits (port : UInt16) :
    portNumber? (Nat.toDigits 10 port.toNat) = some port := by
  rw [portNumber?_eq_some (isPortText_toDigits port), Nat.ofDigitChars_ten_toDigits]
  simp

/-! ## The parts of a text -/

/-- The origin that the text of a URL starts with. -/
def textOrigin (url : Url) : Origin where
  scheme := url.scheme.toList
  userinfo? := none
  host := .ofText (url.host?.getD "")
  port? := portDigits? url.scheme url.rawPort

/-- The tail that the text of a URL ends in. -/
def textTail (url : Url) : Tail := writtenTail id (url.path?.getD "") url

theorem toList_text (url : Url) :
    url.text.toList = Parts.text ⟨some (textOrigin url), textTail url⟩ := by
  rw [text, String.toList_ofList, ← Host.text_ofText, portText_eq, Parts.text_absolute,
    authorityText, textTail, text_writtenTail]
  simp [textOrigin, userinfoText]

/-- The port of a URL once it is read from its text: the one that is set, or the one that the scheme
implies. -/
def impliedPort (url : Url) : UInt16 :=
  if url.rawPort = 0 then (defaultPort? url.scheme).getD 0 else url.rawPort

theorem port_textOrigin (url : Url) : (textOrigin url).port = url.impliedPort := by
  have hscheme : String.ofList (textOrigin url).scheme = url.scheme := String.ofList_toList
  rw [Origin.port, hscheme, textOrigin, portDigits?, impliedPort]
  by_cases hzero : url.rawPort = 0
  · simp [hzero]
  · by_cases hdefault : defaultPort? url.scheme = some url.rawPort
    · simp [hzero, hdefault]
    · simp [hzero, hdefault, portNumber?_toDigits]

/-! ## Reading back -/

/-- A URL whose text can be read back: it has a host, its components are made of the characters
that they may have, and nothing in a value is an escape or ends it. -/
structure HasText (url : Url) : Prop where
  scheme : ∀ scheme ∈ url.scheme?, scheme.toList ≠ [] ∧ ∀ c ∈ scheme.toList, c.isAlpha = true
  host : ∃ host, url.host? = some host ∧ IsHostText host
  target : HasTarget url
  values : ∀ param ∈ url.params.entries, ∀ c ∈ param.2.toList,
    isUrlChar c = true ∧ c ∉ ['%', '+', '&', '#']

instance (url : Url) : Decidable url.HasText :=
  decidable_of_iff
    ((∀ scheme ∈ url.scheme?, scheme.toList ≠ [] ∧ scheme.toList.all Char.isAlpha = true) ∧
      url.host?.any (fun host => decide (IsHostText host)) = true ∧ HasTarget url ∧
      ∀ param ∈ url.params.entries,
        param.2.toList.all (fun c => isUrlChar c && decide (c ∉ ['%', '+', '&', '#'])) = true)
    ⟨fun ⟨a, b, c, d⟩ => ⟨by simpa using a, by simpa [Option.any_eq_true] using b, c,
        by simpa using d⟩,
      fun ⟨a, b, c, d⟩ => ⟨by simpa using a, by simpa [Option.any_eq_true] using b, c,
        by simpa using d⟩⟩

namespace HasText

variable {url : Url}

theorem wellFormed_textOrigin (h : HasText url) : (textOrigin url).WellFormed := by
  have hscheme : url.scheme.toList ≠ [] ∧ ∀ c ∈ url.scheme.toList, c.isAlpha = true := by
    rw [Url.scheme]
    cases hset : url.scheme? with
    | none => exact ⟨by decide, List.all_eq_true.mp (by decide)⟩
    | some scheme => exact h.scheme scheme hset
  obtain ⟨host, hhost, htext⟩ := h.host
  refine ⟨hscheme.1, hscheme.2, by simp [textOrigin], ?_, ?_⟩
  · rw [textOrigin, hhost]
    exact Host.wellFormed_ofText htext
  · intro digits hdigits
    rw [textOrigin, portDigits?] at hdigits
    split at hdigits
    · cases hdigits
    · cases hdigits
      exact isPortText_toDigits url.rawPort

theorem plain_textTail (h : HasText url) : (textTail url).Plain := by
  refine plain_writtenTail ?_ h.target.keys (fun param hparam c hc => ?_) h.target.fragment
  · cases hpath : url.path? with
    | none => exact fun c hc => absurd hc List.not_mem_nil
    | some path => exact h.target.path path hpath
  · obtain ⟨hchar, hmarks⟩ := h.values param hparam c hc
    exact ⟨hchar, fun heq => hmarks (by simp [heq])⟩

/-- **The parts of a text can be written.** -/
theorem wellFormed (h : HasText url) :
    Parts.WellFormed ⟨some (textOrigin url), textTail url⟩ := by
  obtain ⟨htail, hchars⟩ := Tail.plain_iff.mp h.plain_textTail
  have hslash : (textTail url).path = [] ∨ (textTail url).path.head? = some '/' := by
    rw [textTail, writtenTail]
    cases hpath : url.path? with
    | none => exact .inl rfl
    | some path => exact .inr (h.target.slash path hpath)
  refine ⟨?_, .absolute h.wellFormed_textOrigin htail hslash⟩
  rw [Parts.text, List.forall_mem_append]
  exact ⟨Origin.isUrlChar_of_mem h.wellFormed_textOrigin rfl, hchars⟩

theorem params_textTail (h : HasText url) :
    ((textTail url).query?.map queryParams).getD .empty = url.params := by
  refine params_writtenTail h.target.keys (fun param hparam hmem => ?_) fun param hparam =>
    Percent.decode_of_plain ⟨fun hmem => ?_, fun hmem => ?_⟩
  · exact (h.values param hparam '&' hmem).2 (by decide)
  · exact (h.values param hparam '%' hmem).2 (by decide)
  · exact (h.values param hparam '+' hmem).2 (by decide)

end HasText

/-- **The text of a URL is read as that URL**, with the defaults of its scheme and its port in
place, and without user information. -/
theorem parse_text {url : Url} (h : HasText url) :
    parse url.text =
      .ok { scheme? := some url.scheme
            host? := url.host?
            rawPort := url.impliedPort
            path? := url.path?
            fragment? := url.fragment?
            params := url.params } := by
  obtain ⟨host, hhost, -⟩ := h.host
  have hpath : (if (textTail url).path.isEmpty then none
      else some (String.ofList (textTail url).path)) = url.path? := by
    rw [textTail, writtenTail]
    cases hset : url.path? with
    | none => rfl
    | some path =>
      have hslash := h.target.slash path hset
      have hne : path.toList ≠ [] := by
        intro hnil
        rw [hnil] at hslash
        cases hslash
      simpa using hne
  have hfragment : (textTail url).fragment?.map String.ofList = url.fragment? :=
    fragment_writtenTail
  rw [parse_eq, toList_text, ofText?_text h.wellFormed]
  simp only [ofParts, Option.map_some, Option.getD_some, Option.bind_some, hpath, hfragment,
    h.params_textTail, port_textOrigin]
  simp [textOrigin, Host.chars_ofText, hhost]

/-- Two URLs that agree in what shows in their texts, their ports left aside. -/
structure SameButPort (url other : Url) : Prop where
  scheme : other.scheme = url.scheme
  host : other.host? = url.host?
  path : other.path? = url.path?
  params : other.params = url.params
  fragment : other.fragment? = url.fragment?

/-- **URLs survive being written.** The text of a URL that can be read back, and has a port, is read
into every URL as one with the same scheme, host, port, path, parameters and fragment. The user
information is not written, so there is none. -/
theorem replaceBy_text {url : Url} (h : HasText url) (hport : url.rawPort ≠ 0) (other : Url) :
    ∃ read, parse url.text = .ok read ∧ other.replaceBy url.text = read ∧
      SameButPort url read ∧ read.port = url.port ∧ read.userinfo? = none := by
  have hparse := parse_text h
  refine ⟨_, hparse, ?_, ⟨rfl, rfl, rfl, rfl, rfl⟩, ?_, rfl⟩
  · rw [replaceBy, hparse]
  · rw [port, impliedPort, if_neg hport, port]

/-- A URL with an address literal, the port of its scheme, a value with marks of a query in it and
an empty fragment. -/
def literalUrl : Url where
  scheme? := some "HTTPS"
  host? := some "2001:db8::1"
  rawPort := 443
  path? := some "/a//b"
  fragment? := some ""
  userinfo? := some "u:p"
  params := ⟨[("k", "a=b?"), ("é", "")], by decide⟩

theorem replaceBy_text_literalUrl :
    (HasText literalUrl ∧ literalUrl.rawPort ≠ 0) ∧
      literalUrl.text = "HTTPS://[2001:db8::1]/a//b?k=a=b?&é=#" ∧
      ∃ read, parse literalUrl.text = .ok read ∧ replaceBy {} literalUrl.text = read ∧
        SameButPort literalUrl read ∧ read.port = literalUrl.port ∧ read.userinfo? = none := by
  have htext : HasText literalUrl := by decide
  have hport : literalUrl.rawPort ≠ 0 := by decide
  exact ⟨⟨htext, hport⟩, by decide, replaceBy_text htext hport {}⟩

end HttpWire.Url
