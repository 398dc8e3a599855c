import HttpWire.Proofs.Span
import HttpWire.Proofs.Url.Split
/-!
# Splitting and joining

A URL text splits into some parts exactly if it is these parts joined, and the parts are such that
no delimiter stands in a part before it. So splitting loses nothing, and there is only one way
to split a text. Each function that splits has lemmas of this form, and the equivalence for whole
texts is put together from them.
-/

namespace HttpWire.Url

/-! ## Cuts -/

/-- An optional part starts with its delimiter, if there is one. -/
theorem head?_delimited {delimiter : Char} {after? : Option (List Char)} :
    ∀ c ∈ (delimited delimiter after?).head?, c = delimiter := by
  intro c hc
  cases after? with
  | none => cases hc
  | some after =>
    cases hc
    rfl

/-- Without the delimiter, the run before it is everything. -/
theorem bne_of_not_mem {delimiter : Char} {chars : List Char} (h : delimiter ∉ chars) :
    ∀ c ∈ chars, (c != delimiter) = true := by
  intro c hc
  rw [bne_iff_ne]
  rintro rfl
  exact h hc

/-- An optional part stops a run at its delimiter, if there is one. -/
theorem bne_head?_delimited {delimiter : Char} (after? : Option (List Char)) :
    ∀ c ∈ (delimited delimiter after?).head?, (c != delimiter) = false := by
  intro c hc
  rw [head?_delimited c hc]
  exact bne_self_eq_false delimiter

theorem cut_of_not_mem {delimiter : Char} {text : List Char} (h : delimiter ∉ text) :
    cut delimiter text = (text, none) := by
  have hdrop : text.dropWhile (· != delimiter) = [] :=
    List.dropWhile_eq_nil_iff.mpr (bne_of_not_mem h)
  rw [cut, hdrop]

theorem cut_append {delimiter : Char} {before : List Char} (h : delimiter ∉ before)
    (after : List Char) : cut delimiter (before ++ delimiter :: after) = (before, some after) := by
  have hstop : ∀ c ∈ (delimiter :: after).head?, (c != delimiter) = false :=
    bne_head?_delimited (some after)
  rw [cut, dropWhile_run (bne_of_not_mem h) hstop, takeWhile_run (bne_of_not_mem h) hstop]

theorem cut_delimited {delimiter : Char} {before : List Char} (h : delimiter ∉ before)
    (after? : Option (List Char)) :
    cut delimiter (before ++ delimited delimiter after?) = (before, after?) := by
  cases after? with
  | none => rw [delimited, List.append_nil, cut_of_not_mem h]
  | some after => exact cut_append h after

/-- **A cut takes nothing away but the delimiter**, and it is at the first one. -/
theorem cut_eq_iff {delimiter : Char} {text before : List Char} {after? : Option (List Char)} :
    cut delimiter text = (before, after?) ↔
      text = before ++ delimited delimiter after? ∧ delimiter ∉ before := by
  constructor
  · intro h
    obtain ⟨run, rest, rfl, hrun, hstop⟩ := exists_run (· != delimiter) text
    have hmem : delimiter ∉ run := by
      intro hmem
      exact bne_iff_ne.mp (hrun delimiter hmem) rfl
    cases rest with
    | nil =>
      rw [List.append_nil, cut_of_not_mem hmem] at h
      cases h
      exact ⟨by rw [List.append_nil, delimited, List.append_nil], hmem⟩
    | cons c rest =>
      have hc : c = delimiter := by simpa using hstop c rfl
      rw [hc, cut_append hmem] at h
      cases h
      exact ⟨by rw [hc, delimited], hmem⟩
  · rintro ⟨rfl, hmem⟩
    exact cut_delimited hmem after?

/-! ## Tails -/

/-- A tail in which every delimiter is the first one of its kind. -/
structure Tail.WellFormed (tail : Tail) : Prop where
  path : '?' ∉ tail.path ∧ '#' ∉ tail.path
  query : ∀ query ∈ tail.query?, '#' ∉ query

/-- No number sign stands before the fragment. -/
theorem Tail.WellFormed.front {tail : Tail} (h : tail.WellFormed) :
    '#' ∉ tail.path ++ delimited '?' tail.query? := by
  rw [List.mem_append]
  rintro (hmem | hmem)
  · exact h.path.2 hmem
  · cases hq : tail.query? with
    | none => rw [hq] at hmem; cases hmem
    | some query =>
      rw [hq, delimited, List.mem_cons] at hmem
      rcases hmem with heq | hmem
      · exact absurd heq (by decide)
      · exact h.query query (by rw [hq]; rfl) hmem

/-- **A tail falls apart where it was joined.** -/
theorem splitTail_text {tail : Tail} (h : tail.WellFormed) : splitTail tail.text = tail := by
  rw [splitTail, Tail.text, cut_delimited h.front]
  dsimp only
  rw [cut_delimited h.path.1]

/-- Every text is a tail. -/
theorem text_splitTail (text : List Char) :
    (splitTail text).text = text ∧ (splitTail text).WellFormed := by
  obtain ⟨⟨front, fragment?⟩, hfront⟩ : ∃ split, cut '#' text = split := ⟨_, rfl⟩
  obtain ⟨⟨path, query?⟩, hpath⟩ : ∃ split, cut '?' front = split := ⟨_, rfl⟩
  have hsplit : splitTail text = { path, query?, fragment? } := by
    rw [splitTail, hfront]
    dsimp only
    rw [hpath]
  obtain ⟨rfl, hnumber⟩ := cut_eq_iff.mp hfront
  obtain ⟨rfl, hquestion⟩ := cut_eq_iff.mp hpath
  rw [List.mem_append, not_or] at hnumber
  rw [hsplit]
  refine ⟨rfl, ⟨hquestion, hnumber.1⟩, ?_⟩
  rintro query hquery hmem
  cases hquery
  exact hnumber.2 (List.mem_cons_of_mem _ hmem)

/-- A tail of URL characters in which every delimiter is the first one of its kind. -/
structure Tail.Plain (tail : Tail) : Prop where
  path : ∀ c ∈ tail.path, isUrlChar c = true ∧ c ≠ '?' ∧ c ≠ '#'
  query : ∀ query ∈ tail.query?, ∀ c ∈ query, isUrlChar c = true ∧ c ≠ '#'
  fragment : ∀ fragment ∈ tail.fragment?, ∀ c ∈ fragment, isUrlChar c = true

/-- The characters of a tail are those of its parts and two delimiters. -/
theorem Tail.plain_iff {tail : Tail} :
    tail.Plain ↔ tail.WellFormed ∧ ∀ c ∈ tail.text, isUrlChar c = true := by
  have hchars : (∀ c ∈ tail.text, isUrlChar c = true) ↔
      (∀ c ∈ tail.path, isUrlChar c = true) ∧
        (∀ query ∈ tail.query?, ∀ c ∈ query, isUrlChar c = true) ∧
        ∀ fragment ∈ tail.fragment?, ∀ c ∈ fragment, isUrlChar c = true := by
    have hquestion : isUrlChar '?' = true := by decide
    have hnumber : isUrlChar '#' = true := by decide
    obtain ⟨path, query?, fragment?⟩ := tail
    rw [Tail.text, List.forall_mem_append, List.forall_mem_append, and_assoc]
    cases query? <;> cases fragment? <;> simp [delimited, hquestion, hnumber]
  rw [hchars]
  constructor
  · rintro ⟨hpath, hquery, hfragment⟩
    exact ⟨⟨⟨fun hmem => (hpath '?' hmem).2.1 rfl, fun hmem => (hpath '#' hmem).2.2 rfl⟩,
        fun query hset hmem => (hquery query hset '#' hmem).2 rfl⟩,
      fun c hc => (hpath c hc).1, fun query hset c hc => (hquery query hset c hc).1, hfragment⟩
  · rintro ⟨⟨⟨hquestion, hnumber⟩, hend⟩, hpath, hquery, hfragment⟩
    exact ⟨fun c hc => ⟨hpath c hc, fun heq => hquestion (heq ▸ hc), fun heq => hnumber (heq ▸ hc)⟩,
      fun query hset c hc => ⟨hquery query hset c hc, fun heq => hend query hset (heq ▸ hc)⟩,
      hfragment⟩

/-! ## Hosts and ports -/

/-- A host that can be written, and is not empty: a name of ASCII letters, digits and four marks,
or an address literal of hexadecimal digits, colons and points. -/
def Host.WellFormed : Host → Prop
  | .name chars => chars ≠ [] ∧ ∀ c ∈ chars, c.isAlphanum = true ∨ c ∈ ['.', '-', '_', '~']
  | .literal chars => chars ≠ [] ∧
    ∀ c ∈ chars, c.isDigit = true ∨ 'a' ≤ c ∧ c ≤ 'f' ∨ 'A' ≤ c ∧ c ≤ 'F' ∨ c ∈ [':', '.']

theorem Host.wellFormed_name {chars : List Char} :
    (Host.name chars).WellFormed ↔ chars ≠ [] ∧ ∀ c ∈ chars, isHostChar c = true := by
  simp [Host.WellFormed, isHostChar, or_assoc]

theorem Host.wellFormed_literal {chars : List Char} :
    (Host.literal chars).WellFormed ↔ chars ≠ [] ∧ ∀ c ∈ chars, isLiteralChar c = true := by
  simp [Host.WellFormed, isLiteralChar, or_assoc]

instance : (host : Host) → Decidable host.WellFormed
  | .name chars =>
    decidable_of_iff (chars ≠ [] ∧ chars.all isHostChar = true)
      (by rw [Host.wellFormed_name, List.all_eq_true])
  | .literal chars =>
    decidable_of_iff (chars ≠ [] ∧ chars.all isLiteralChar = true)
      (by rw [Host.wellFormed_literal, List.all_eq_true])

/-- The digits of a port. -/
structure IsPortText (digits : List Char) : Prop where
  ne_nil : digits ≠ []
  length_le : digits.length ≤ 5
  digit : ∀ c ∈ digits, c.isDigit = true
  value_le : Nat.ofDigitChars 10 digits 0 ≤ 65535

theorem portNumber?_eq_some {digits : List Char} (h : IsPortText digits) :
    portNumber? digits = some (Nat.ofDigitChars 10 digits 0).toUInt16 := by
  rw [portNumber?, if_pos]
  have hdigits : digits.all Char.isDigit = true := List.all_eq_true.mpr h.digit
  simp [h.ne_nil, h.length_le, hdigits, maxPort, h.value_le]

theorem isPort_iff {port? : Option (List Char)} :
    isPort port? = true ↔ ∀ digits ∈ port?, IsPortText digits := by
  cases port? with
  | none => simp [isPort]
  | some digits =>
    constructor
    · intro h digits' hdigits
      cases hdigits
      rw [isPort, Option.all_some, portNumber?] at h
      split at h
      · next hport =>
        simp only [Bool.and_eq_true, Bool.not_eq_true', List.isEmpty_eq_false_iff,
          decide_eq_true_eq, List.all_eq_true] at hport
        exact ⟨hport.1.1.1, hport.1.1.2, hport.1.2, hport.2⟩
      · cases h
    · intro h
      rw [isPort, Option.all_some, portNumber?_eq_some (h digits rfl)]
      rfl

/-- A character outside a class is none of those in a run of the class. -/
theorem not_mem_of_class {inClass : Char → Bool} {chars : List Char}
    (h : ∀ c ∈ chars, inClass c = true) {c : Char} (hc : inClass c = false) : c ∉ chars := by
  intro hmem
  rw [h c hmem] at hc
  cases hc

theorem splitLiteral?_eq_some_iff {text : List Char} {host : Host} {port? : Option (List Char)} :
    splitLiteral? text = some (host, port?) ↔
      ∃ chars, host = .literal chars ∧ host.WellFormed ∧
        text = chars ++ ']' :: delimited ':' port? := by
  constructor
  · intro h
    rw [splitLiteral?] at h
    split at h
    · cases h
    · next literal after hcut =>
      obtain ⟨rfl, -⟩ := cut_eq_iff.mp hcut
      split at h
      · cases h
      · next hliteral =>
        have hwell : (Host.literal literal).WellFormed :=
          Host.wellFormed_literal.mpr (by simpa using hliteral)
        split at h
        · cases h
          exact ⟨literal, rfl, hwell, rfl⟩
        · next c port =>
          split at h
          · next hcolon =>
            cases h
            exact ⟨literal, rfl, hwell, by rw [hcolon]; rfl⟩
          · cases h
  · rintro ⟨chars, rfl, hwell, rfl⟩
    have hchars := Host.wellFormed_literal.mp hwell
    have hcut : ']' ∉ chars := not_mem_of_class hchars.2 (by decide)
    have hliteral : (chars.isEmpty || !chars.all isLiteralChar) = false := by
      simpa using hchars
    rw [splitLiteral?, cut_append hcut]
    dsimp only
    rw [hliteral]
    cases port? <;> rfl

theorem splitName?_eq_some_iff {text : List Char} {host : Host} {port? : Option (List Char)} :
    splitName? text = some (host, port?) ↔
      ∃ chars, host = .name chars ∧ host.WellFormed ∧ text = chars ++ delimited ':' port? := by
  constructor
  · intro h
    obtain ⟨⟨name, after?⟩, hcut⟩ : ∃ split, cut ':' text = split := ⟨_, rfl⟩
    rw [splitName?, hcut] at h
    dsimp only at h
    split at h
    · cases h
    · next hname =>
      cases h
      have hwell : (Host.name name).WellFormed := Host.wellFormed_name.mpr (by simpa using hname)
      exact ⟨name, rfl, hwell, (cut_eq_iff.mp hcut).1⟩
  · rintro ⟨chars, rfl, hwell, rfl⟩
    have hchars := Host.wellFormed_name.mp hwell
    have hcut : ':' ∉ chars := not_mem_of_class hchars.2 (by decide)
    have hname : (chars.isEmpty || !chars.all isHostChar) = false := by
      simpa using hchars
    rw [splitName?, cut_delimited hcut]
    dsimp only
    rw [hname]
    rfl

/-- **A host with a port**: the bracket shows an address literal, the first colon behind a name or
a bracket shows a port. -/
theorem splitHost?_eq_some_iff {text : List Char} {host : Host} {port? : Option (List Char)} :
    splitHost? text = some (host, port?) ↔
      host.WellFormed ∧ (∀ digits ∈ port?, IsPortText digits) ∧
        text = host.text ++ delimited ':' port? := by
  rw [splitHost?, Option.filter_eq_some_iff, isPort_iff]
  constructor
  · rintro ⟨h, hport⟩
    split at h
    · next hbracket =>
      obtain ⟨chars, rfl, hwell, htail⟩ := splitLiteral?_eq_some_iff.mp h
      obtain ⟨rest, rfl⟩ := List.head?_eq_some_iff.mp hbracket
      rw [List.tail_cons] at htail
      refine ⟨hwell, hport, ?_⟩
      rw [htail, Host.text, List.cons_append, List.cons_append, List.append_assoc]
      rfl
    · obtain ⟨chars, rfl, hwell, htext⟩ := splitName?_eq_some_iff.mp h
      exact ⟨hwell, hport, htext⟩
  · rintro ⟨hwell, hport, rfl⟩
    refine ⟨?_, hport⟩
    cases host with
    | name chars =>
      have hbracket : (chars ++ delimited ':' port?).head? ≠ some '[' := by
        cases chars with
        | nil => exact absurd rfl hwell.1
        | cons c chars =>
          intro hhead
          cases hhead
          exact absurd ((Host.wellFormed_name.mp hwell).2 '[' List.mem_cons_self) (by decide)
      rw [Host.text, if_neg hbracket]
      exact splitName?_eq_some_iff.mpr ⟨chars, rfl, hwell, rfl⟩
    | literal chars =>
      rw [Host.text, List.cons_append, List.cons_append, List.head?_cons, if_pos rfl,
        List.tail_cons]
      exact splitLiteral?_eq_some_iff.mpr ⟨chars, rfl, hwell, by rw [List.append_assoc]; rfl⟩

/-! ## Authorities -/

/-- User information that can be written: nothing in it ends it, or belongs to what is behind. -/
def IsUserinfo (chars : List Char) : Prop := ∀ c ∈ chars, c ∉ ['/', '?', '#', '@', '[', ']']

theorem isUserinfo_iff {chars : List Char} :
    IsUserinfo chars ↔ ∀ c ∈ chars, isUserinfoChar c = true := by
  simp only [IsUserinfo, isUserinfoChar, List.all_eq_true, bne_iff_ne]
  exact forall₂_congr fun c _ => ⟨fun h d hd heq => h (heq ▸ hd), fun h hmem => h c hmem rfl⟩

/-- An origin that can be written. -/
structure Origin.WellFormed (origin : Origin) : Prop where
  scheme_ne_nil : origin.scheme ≠ []
  scheme : ∀ c ∈ origin.scheme, c.isAlpha = true
  userinfo : ∀ userinfo ∈ origin.userinfo?, IsUserinfo userinfo
  host : origin.host.WellFormed
  port : ∀ digits ∈ origin.port?, IsPortText digits

/-- User information with its sign. -/
def userinfoText : Option (List Char) → List Char
  | none => []
  | some userinfo => userinfo ++ ['@']

/-- What stands between the slashes of a scheme and the path. -/
def authorityText (userinfo? : Option (List Char)) (host : Host) (port? : Option (List Char)) :
    List Char :=
  userinfoText userinfo? ++ (host.text ++ delimited ':' port?)

theorem Origin.text_eq (origin : Origin) :
    origin.text = origin.scheme ++ ':' :: '/' :: '/' ::
      authorityText origin.userinfo? origin.host origin.port? := by
  rw [Origin.text, authorityText]
  cases origin.userinfo? <;> simp [userinfoText]

/-- The characters of a host and a port. -/
theorem plain_of_mem_hostText {host : Host} {port? : Option (List Char)} (hhost : host.WellFormed)
    (hport : ∀ digits ∈ port?, IsPortText digits) {c : Char}
    (h : c ∈ host.text ++ delimited ':' port?) : c ≠ '@' ∧ endsAuthority c = false := by
  -- Each class leaves out the sign of user information and what ends an authority.
  have hclass : ∀ {inClass : Char → Bool}, inClass '@' = false → inClass '/' = false →
      inClass '?' = false → inClass '#' = false → inClass c = true →
      c ≠ '@' ∧ endsAuthority c = false := by
    intro inClass hat hslash hquestion hnumber hc
    refine ⟨?_, ?_⟩
    · rintro rfl
      rw [hat] at hc
      cases hc
    · rw [Bool.eq_false_iff]
      intro hends
      simp only [endsAuthority, Bool.or_eq_true, beq_iff_eq] at hends
      rcases hends with (rfl | rfl) | rfl
      · rw [hslash] at hc; cases hc
      · rw [hquestion] at hc; cases hc
      · rw [hnumber] at hc; cases hc
  rw [List.mem_append] at h
  rcases h with hmem | hmem
  · cases host with
    | name chars => exact hclass rfl rfl rfl rfl ((Host.wellFormed_name.mp hhost).2 c hmem)
    | literal chars =>
      rw [Host.text, List.mem_append, List.mem_cons, List.mem_singleton] at hmem
      rcases hmem with (rfl | hmem) | rfl
      · decide
      · exact hclass rfl rfl rfl rfl ((Host.wellFormed_literal.mp hhost).2 c hmem)
      · decide
  · cases port? with
    | none => cases hmem
    | some digits =>
      rcases List.mem_cons.mp hmem with rfl | hmem
      · decide
      · exact hclass rfl rfl rfl rfl ((hport digits rfl).digit c hmem)

theorem splitAuthority?_eq_some_iff {text : List Char} {userinfo? : Option (List Char)}
    {host : Host} {port? : Option (List Char)} :
    splitAuthority? text = some (userinfo?, host, port?) ↔
      (∀ userinfo ∈ userinfo?, IsUserinfo userinfo) ∧ host.WellFormed ∧
        (∀ digits ∈ port?, IsPortText digits) ∧ text = authorityText userinfo? host port? := by
  constructor
  · intro h
    rw [splitAuthority?] at h
    split at h
    · next front hcut =>
      obtain ⟨rfl, -⟩ := cut_eq_iff.mp hcut
      obtain ⟨⟨host', port'⟩, hsplit, heq⟩ := Option.map_eq_some_iff.mp h
      cases heq
      obtain ⟨hhost, hport, htext⟩ := splitHost?_eq_some_iff.mp hsplit
      refine ⟨by simp, hhost, hport, ?_⟩
      rw [htext, delimited, List.append_nil]
      rfl
    · next userinfo rest hcut =>
      obtain ⟨rfl, -⟩ := cut_eq_iff.mp hcut
      split at h
      · cases h
      · next huserinfo =>
        obtain ⟨⟨host', port'⟩, hsplit, heq⟩ := Option.map_eq_some_iff.mp h
        cases heq
        obtain ⟨hhost, hport, htext⟩ := splitHost?_eq_some_iff.mp hsplit
        simp only [Bool.or_eq_true, Bool.not_eq_true', not_or, Bool.not_eq_false,
          List.all_eq_true] at huserinfo
        refine ⟨?_, hhost, hport, ?_⟩
        · intro userinfo' hmem
          cases hmem
          exact isUserinfo_iff.mpr huserinfo.2
        · rw [htext, authorityText, userinfoText, List.append_assoc]
          rfl
  · rintro ⟨huserinfo, hhost, hport, rfl⟩
    have hat : '@' ∉ host.text ++ delimited ':' port? := by
      intro hmem
      exact (plain_of_mem_hostText hhost hport hmem).1 rfl
    have hsplit := splitHost?_eq_some_iff.mpr ⟨hhost, hport, rfl⟩
    cases userinfo? with
    | none =>
      rw [authorityText, userinfoText, List.nil_append, splitAuthority?, cut_of_not_mem hat]
      dsimp only
      rw [hsplit]
      rfl
    | some userinfo =>
      have hchars := isUserinfo_iff.mp (huserinfo userinfo rfl)
      have hfront : '@' ∉ userinfo := not_mem_of_class hchars (by decide)
      rw [authorityText, userinfoText, List.append_assoc, splitAuthority?]
      rw [show ['@'] ++ (host.text ++ delimited ':' port?) =
        '@' :: (host.text ++ delimited ':' port?) from rfl, cut_append hfront]
      dsimp only
      rw [if_neg (by simpa [hat] using hchars), hsplit]
      rfl

/-! ## Whole texts -/

/-- The three forms of a URL: an asterisk, a path, or an origin behind which the path may be
empty. -/
inductive Parts.Form : Parts → Prop where
  | asterisk : Form ⟨none, ⟨['*'], none, none⟩⟩
  | path {tail : Tail} (htail : tail.WellFormed) (hpath : tail.path.head? = some '/') :
      Form ⟨none, tail⟩
  | absolute {origin : Origin} {tail : Tail} (horigin : origin.WellFormed)
      (htail : tail.WellFormed) (hpath : tail.path = [] ∨ tail.path.head? = some '/') :
      Form ⟨some origin, tail⟩

/-- Parts that can be written. -/
structure Parts.WellFormed (parts : Parts) : Prop where
  chars : ∀ c ∈ parts.text, isUrlChar c = true
  form : parts.Form

theorem Parts.Form.tail {parts : Parts} (h : parts.Form) : parts.tail.WellFormed := by
  cases h with
  | asterisk => exact ⟨by decide, by simp⟩
  | path htail => exact htail
  | absolute _ htail => exact htail

theorem Parts.text_absolute (origin : Origin) (tail : Tail) :
    Parts.text ⟨some origin, tail⟩ = origin.scheme ++ ':' :: '/' :: '/' ::
      (authorityText origin.userinfo? origin.host origin.port? ++ tail.text) := by
  rw [Parts.text]
  dsimp only
  rw [Origin.text_eq, List.append_assoc]
  rfl

/-- A tail without a path starts with its query or its fragment. -/
theorem head?_text_of_nil {tail : Tail} (h : tail.path = []) :
    ∀ c ∈ tail.text.head?, c = '?' ∨ c = '#' := by
  intro c hc
  rw [Tail.text, h, List.nil_append, List.head?_append, Option.mem_def, Option.or_eq_some_iff] at hc
  rcases hc with hc | ⟨-, hc⟩
  · exact .inl (head?_delimited c hc)
  · exact .inr (head?_delimited c hc)

/-- Where a tail starts, the authority before it ends. -/
theorem endsAuthority_of_head? {tail : Tail}
    (h : tail.path = [] ∨ tail.path.head? = some '/') :
    ∀ c ∈ tail.text.head?, endsAuthority c = true := by
  intro c hc
  rcases h with hpath | hpath
  · rcases head?_text_of_nil hpath c hc with rfl | rfl <;> rfl
  · obtain ⟨rest, hpath⟩ := List.head?_eq_some_iff.mp hpath
    rw [Tail.text, hpath] at hc
    cases hc
    rfl

/-- What ends an authority starts with a path, or has none. -/
theorem path_of_endsAuthority {tail : Tail} (htail : tail.WellFormed)
    (h : ∀ c ∈ tail.text.head?, endsAuthority c = true) :
    tail.path = [] ∨ tail.path.head? = some '/' := by
  cases hpath : tail.path with
  | nil => exact .inl rfl
  | cons c rest =>
    have hends : endsAuthority c = true := h c (by rw [Tail.text, hpath]; rfl)
    obtain ⟨hquestion, hnumber⟩ := htail.path
    rw [hpath] at hquestion hnumber
    simp only [endsAuthority, Bool.or_eq_true, beq_iff_eq] at hends
    rcases hends with (rfl | rfl) | rfl
    · exact .inr rfl
    · exact absurd List.mem_cons_self hquestion
    · exact absurd List.mem_cons_self hnumber

/-- The path of a tail that starts with a slash does, too. -/
theorem head?_path {tail : Tail} (h : tail.text.head? = some '/') :
    tail.path.head? = some '/' := by
  cases hpath : tail.path with
  | nil =>
    rcases head?_text_of_nil hpath '/' h with heq | heq
    · exact absurd heq (by decide)
    · exact absurd heq (by decide)
  | cons c rest =>
    rw [Tail.text, hpath] at h
    exact h

/-- No character of an authority ends it. -/
theorem not_endsAuthority_of_mem {origin : Origin} (horigin : origin.WellFormed) {c : Char}
    (h : c ∈ authorityText origin.userinfo? origin.host origin.port?) :
    endsAuthority c = false := by
  rw [authorityText, List.mem_append] at h
  rcases h with hmem | hmem
  · cases hu : origin.userinfo? with
    | none =>
      rw [hu] at hmem
      cases hmem
    | some userinfo =>
      rw [hu, userinfoText, List.mem_append, List.mem_singleton] at hmem
      rcases hmem with hmem | rfl
      · have hchar := horigin.userinfo userinfo hu c hmem
        simp only [List.mem_cons, not_or] at hchar
        simp [endsAuthority, hchar]
      · rfl
  · exact (plain_of_mem_hostText horigin.host horigin.port hmem).2

theorem splitAbsolute?_text {origin : Origin} {tail : Tail} (horigin : origin.WellFormed)
    (htail : tail.WellFormed) (hpath : tail.path = [] ∨ tail.path.head? = some '/') :
    splitAbsolute? (Parts.text ⟨some origin, tail⟩) = some ⟨some origin, tail⟩ := by
  have hcolon : ∀ rest : List Char, ∀ c ∈ (':' :: rest).head?, c.isAlpha = false := by
    intro rest c hc
    cases hc
    decide
  have hauthority : ∀ c ∈ authorityText origin.userinfo? origin.host origin.port?,
      (!endsAuthority c) = true := by
    intro c hc
    rw [not_endsAuthority_of_mem horigin hc]
    rfl
  have hstop : ∀ c ∈ tail.text.head?, (!endsAuthority c) = false := by
    intro c hc
    rw [endsAuthority_of_head? hpath c hc]
    rfl
  have hsplit := splitAuthority?_eq_some_iff.mpr
    ⟨horigin.userinfo, horigin.host, horigin.port, rfl⟩
  rw [Parts.text_absolute, splitAbsolute?, dropWhile_run horigin.scheme (hcolon _),
    takeWhile_run horigin.scheme (hcolon _)]
  split
  · next rest hrest =>
    cases hrest
    rw [if_neg (by simpa using horigin.scheme_ne_nil), takeWhile_run hauthority hstop,
      dropWhile_run hauthority hstop, hsplit, splitTail_text htail]
    rfl
  · next hother => exact absurd rfl (hother _)

theorem form_of_splitAbsolute? {text : List Char} {parts : Parts}
    (h : splitAbsolute? text = some parts) : text = parts.text ∧ parts.Form := by
  obtain ⟨scheme, rest, rfl, hscheme, hrest⟩ := exists_run Char.isAlpha text
  rw [splitAbsolute?, dropWhile_run hscheme hrest, takeWhile_run hscheme hrest] at h
  dsimp only at h
  split at h
  · next after =>
    split at h
    · cases h
    · next hne =>
      obtain ⟨⟨userinfo?, host, port?⟩, hsplit, rfl⟩ := Option.map_eq_some_iff.mp h
      obtain ⟨authority, tail, rfl, hauthority, hstop⟩ := exists_run (!endsAuthority ·) after
      rw [takeWhile_run hauthority hstop] at hsplit
      rw [dropWhile_run hauthority hstop]
      obtain ⟨huserinfo, hhost, hport, rfl⟩ := splitAuthority?_eq_some_iff.mp hsplit
      obtain ⟨htext, htail⟩ := text_splitTail tail
      have horigin : Origin.WellFormed { scheme, userinfo?, host, port? } :=
        ⟨by simpa using hne, hscheme, huserinfo, hhost, hport⟩
      have hends : ∀ c ∈ (splitTail tail).text.head?, endsAuthority c = true := by
        rw [htext]
        exact fun c hc => by simpa using hstop c hc
      refine ⟨?_, .absolute horigin htail (path_of_endsAuthority htail hends)⟩
      rw [Parts.text_absolute, htext]
  · cases h

/-- A text that starts with a slash has no origin. -/
theorem ofText?_of_slash {rest : List Char} (h : ('/' :: rest).all isUrlChar = true) :
    Parts.ofText? ('/' :: rest) = some { origin? := none, tail := splitTail ('/' :: rest) } := by
  rw [Parts.ofText?, if_neg (by simpa using h), if_neg (by simp)]
  rfl

/-- A text that starts with a letter is no asterisk and no path. -/
theorem ofText?_of_isAlpha {c : Char} {rest : List Char} (hc : c.isAlpha = true)
    (h : (c :: rest).all isUrlChar = true) :
    Parts.ofText? (c :: rest) = splitAbsolute? (c :: rest) := by
  have hasterisk : c :: rest ≠ ['*'] := by
    rintro ⟨⟩
    exact absurd hc (by decide)
  have hslash : (c :: rest).head? ≠ some '/' := by
    rintro ⟨⟩
    exact absurd hc (by decide)
  rw [Parts.ofText?, if_neg (by simpa using h), if_neg hasterisk, if_neg hslash]

/-- **Parts are found again in the text that they are joined to.** -/
theorem ofText?_text {parts : Parts} (h : parts.WellFormed) :
    Parts.ofText? parts.text = some parts := by
  have hall := List.all_eq_true.mpr h.chars
  obtain ⟨-, form⟩ := h
  cases form with
  | asterisk => rfl
  | @path tail htail hpath =>
    obtain ⟨rest, hrest⟩ : ∃ rest, tail.text = '/' :: rest := by
      obtain ⟨rest, hpath⟩ := List.head?_eq_some_iff.mp hpath
      rw [Tail.text, hpath]
      exact ⟨_, rfl⟩
    have hsplit := splitTail_text htail
    have htext : Parts.text ⟨none, tail⟩ = '/' :: rest := hrest
    rw [htext] at hall ⊢
    rw [hrest] at hsplit
    rw [ofText?_of_slash hall, hsplit]
  | @absolute origin tail horigin htail hpath =>
    obtain ⟨c, scheme, hscheme⟩ := List.exists_cons_of_ne_nil horigin.scheme_ne_nil
    have hc : c.isAlpha = true := horigin.scheme c (by rw [hscheme]; exact List.mem_cons_self)
    obtain ⟨rest, hrest⟩ : ∃ rest, Parts.text ⟨some origin, tail⟩ = c :: rest := by
      rw [Parts.text_absolute, hscheme]
      exact ⟨_, rfl⟩
    have hsplit := splitAbsolute?_text horigin htail hpath
    rw [hrest] at hall hsplit ⊢
    rw [ofText?_of_isAlpha hc hall, hsplit]

/-- **The parts of a text are joined to it again.** -/
theorem wellFormed_of_ofText? {text : List Char} {parts : Parts}
    (h : Parts.ofText? text = some parts) : text = parts.text ∧ parts.WellFormed := by
  suffices hform : text = parts.text ∧ (∀ c ∈ text, isUrlChar c = true) ∧ parts.Form by
    obtain ⟨rfl, hchars, form⟩ := hform
    exact ⟨rfl, hchars, form⟩
  rw [Parts.ofText?] at h
  split at h
  · cases h
  · next hchars =>
    simp only [Bool.or_eq_true, Bool.not_eq_true', not_or, Bool.not_eq_false,
      List.all_eq_true] at hchars
    split at h
    · next hasterisk =>
      cases h
      subst hasterisk
      exact ⟨rfl, hchars.2, .asterisk⟩
    · split at h
      · next hslash =>
        cases h
        obtain ⟨htext, htail⟩ := text_splitTail text
        exact ⟨htext.symm, hchars.2, .path htail (head?_path (by rw [htext, hslash]))⟩
      · obtain ⟨htext, form⟩ := form_of_splitAbsolute? h
        exact ⟨htext, hchars.2, form⟩

/-- **A text splits into some parts exactly if it is these parts joined** and they can be
written. -/
theorem Parts.ofText?_eq_some_iff {text : List Char} {parts : Parts} :
    Parts.ofText? text = some parts ↔ text = parts.text ∧ parts.WellFormed := by
  constructor
  · exact wellFormed_of_ofText?
  · rintro ⟨rfl, hwell⟩
    exact ofText?_text hwell

end HttpWire.Url
