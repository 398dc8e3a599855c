import HttpWire.Proofs.Text.Chars
import HttpWire.Proofs.Url.Layout
/-!
# Splitting bytes and splitting characters

The bytes of a URL text are split where its characters are. Each function that splits bytes has its
lemma against the one that splits characters, and together they say that the components of a text
are where its parts lie.
-/

namespace HttpWire.Url

open Utf8

/-! ## Classes of URL characters -/

theorem ascii_of_isHostChar {c : Char} (h : isHostChar c = true) : c.toNat < 0x80 := by
  simp only [isHostChar, Bool.or_eq_true, beq_iff_eq] at h
  rcases h with (((halphanum | rfl) | rfl) | rfl) | rfl
  · exact ascii_of_isAlphanum halphanum
  all_goals decide

theorem ascii_of_isLiteralChar {c : Char} (h : isLiteralChar c = true) : c.toNat < 0x80 := by
  simp only [isLiteralChar, Bool.or_eq_true, Bool.and_eq_true, decide_eq_true_eq,
    beq_iff_eq] at h
  rcases h with (((hdigit | hrange) | hrange) | rfl) | rfl
  · exact ascii_of_isDigit hdigit
  · exact ascii_of_le (by decide) hrange.2
  · exact ascii_of_le (by decide) hrange.2
  all_goals decide

theorem sameClass_host : SameClass isHostByte isHostChar :=
  .of_isAscii (by decide +kernel) (by decide +kernel) ascii_of_isHostChar

theorem sameClass_literal : SameClass isLiteralByte isLiteralChar :=
  .of_isAscii (by decide +kernel) (by decide +kernel) ascii_of_isLiteralChar

theorem sameClass_digit : SameClass Byte.isDigit Char.isDigit :=
  .of_isAscii (by decide +kernel) (by decide +kernel) ascii_of_isDigit

theorem sameClass_letter : SameClass (fun b => Byte.isUpper b || Byte.isLower b) Char.isAlpha :=
  .of_isAscii (by decide +kernel) (by decide +kernel) fun h =>
    ascii_of_isAlphanum (by rw [Char.isAlphanum, h, Bool.true_or])

theorem sameClass_endsOrigin : SameClass endsOrigin endsAuthority := by
  refine .of_isAscii (by decide +kernel) (by decide +kernel) ?_
  intro c h
  simp only [endsAuthority, Bool.or_eq_true, beq_iff_eq] at h
  rcases h with (rfl | rfl) | rfl <;> decide

/-- A character beyond ASCII is none of those that are left out of a class. -/
theorem ne_of_not_ascii {c other : Char} (hc : 0x80 ≤ c.toNat) (hother : other.toNat < 0x80) :
    other ≠ c := by
  rintro rfl
  exact absurd hother (Nat.not_lt.mpr hc)

theorem sameClass_userinfo : SameClass isUserinfoByte isUserinfoChar := by
  refine sameClass_of_ascii true (by decide +kernel) (by decide +kernel) fun c hc => ?_
  have hothers : ['/', '?', '#', '@', '[', ']'].all (·.toNat < 0x80) = true := by decide
  rw [isUserinfoChar, List.all_eq_true]
  intro other hmem
  have hother := of_decide_eq_true (List.all_eq_true.mp hothers other hmem)
  exact bne_iff_ne.mpr (ne_of_not_ascii hc hother)

theorem sameClass_url : SameClass Byte.isTarget isUrlChar := by
  refine sameClass_of_ascii true (by decide +kernel) (by decide +kernel) fun c hc => ?_
  have hspace : ' ' < c := Nat.lt_of_lt_of_le (by decide) hc
  rw [isUrlChar, Bool.and_eq_true, decide_eq_true_eq, bne_iff_ne]
  exact ⟨hspace, (ne_of_not_ascii hc (by decide)).symm⟩

/-! ## Stretches -/

/-- The bytes of a part are what its stretch holds. -/
theorem slice_behind (before part after : List Char) :
    (Span.behind before part).slice (bytesOf (before ++ part ++ after)) = bytesOf part := by
  rw [Span.slice, Span.behind, ← String.utf8Len_append, take_bytesOf, drop_bytesOf]

/-! ## Delimiters -/

section

variable (delimiter : Char) (hascii : delimiter.toNat < 0x80)
include hascii

theorem findIdx?_delimited {before : List Char} (h : delimiter ∉ before)
    (after? : Option (List Char)) :
    (bytesOf (before ++ delimited delimiter after?)).findIdx?
      (· == delimiter.toNat.toUInt8) = after?.map fun _ => String.utf8Len before := by
  have hrun : ∀ c ∈ before, (c == delimiter) = false := fun c hc => by
    rw [beq_eq_false_iff_ne]
    rintro rfl
    exact h hc
  have hstop : ∀ c ∈ (delimited delimiter after?).head?, (c == delimiter) = true := fun c hc =>
    beq_iff_eq.mpr (head?_delimited c hc)
  rw [findIdx?_bytesOf (sameClass_beq delimiter hascii) hrun hstop]
  cases after? <;> rfl

/-- Where in a stretch its first delimiter is. -/
theorem position?_delimited (before : List Char) {front : List Char} (h : delimiter ∉ front)
    (after? : Option (List Char)) (rest : List Char) :
    (Span.behind before (front ++ delimited delimiter after?)).position?
        (bytesOf (before ++ (front ++ delimited delimiter after?) ++ rest))
        (· == delimiter.toNat.toUInt8) =
      after?.map fun _ => String.utf8Len before + String.utf8Len front := by
  rw [Span.position?, slice_behind, findIdx?_delimited delimiter hascii h, Option.map_map]
  rfl

/-- The stretch behind a delimiter. -/
theorem behind_delimiter (before front after : List Char) :
    Span.behind (before ++ front ++ [delimiter]) after =
      ⟨String.utf8Len before + String.utf8Len front + 1,
        String.utf8Len before + String.utf8Len (front ++ delimiter :: after)⟩ := by
  simp only [Span.behind, String.utf8Len_append, String.utf8Len_cons, String.utf8Len_nil,
    utf8Size_of_ascii hascii, Span.mk.injEq, Nat.zero_add, true_and]
  omega

/-- What is behind the delimiter goes on to the end. -/
theorem map_delimited (before front : List Char) (after? : Option (List Char)) :
    ((after?.map fun _ => String.utf8Len before + String.utf8Len front).map fun offset =>
      (⟨offset + 1, String.utf8Len before +
        String.utf8Len (front ++ delimited delimiter after?)⟩ : Span)) =
      after?.map (Span.behind (before ++ front ++ [delimiter])) := by
  cases after? with
  | none => rfl
  | some after => exact congrArg some (behind_delimiter delimiter hascii before front after).symm

end

/-- What is before the delimiter ends there, and with no delimiter at the end of everything. -/
theorem getD_delimited (delimiter : Char) (before front : List Char)
    (after? : Option (List Char)) :
    (after?.map fun _ => String.utf8Len before + String.utf8Len front).getD
        (String.utf8Len before + String.utf8Len (front ++ delimited delimiter after?)) =
      String.utf8Len before + String.utf8Len front := by
  cases after? with
  | none => rw [delimited, List.append_nil]; rfl
  | some => rfl

/-! ## Tails -/

/-- **The components of a tail are where its parts lie.** -/
theorem addTail_text (fields : Fields) (before : List Char) {tail : Tail} (h : tail.WellFormed) :
    fields.addTail (bytesOf (before ++ tail.text)) (String.utf8Len before) =
      tail.addTo fields before := by
  obtain ⟨front, hfront⟩ : ∃ front, tail.path ++ delimited '?' tail.query? = front := ⟨_, rfl⟩
  have htext : tail.text = front ++ delimited '#' tail.fragment? := by rw [Tail.text, hfront]
  have hlength : (bytesOf (before ++ tail.text)).length = String.utf8Len before +
      String.utf8Len (front ++ delimited '#' tail.fragment?) := by
    rw [length_bytesOf, String.utf8Len_append, htext]
  have hfragment : Span.position? (Span.behind before (front ++ delimited '#' tail.fragment?))
      (bytesOf (before ++ tail.text)) (· == 0x23) =
        tail.fragment?.map fun _ => String.utf8Len before + String.utf8Len front := by
    have hposition := position?_delimited '#' (by decide) before (hfront ▸ h.front)
      tail.fragment? []
    rw [List.append_nil, ← htext] at hposition
    rwa [← htext]
  have hquery : Span.position? (Span.behind before front) (bytesOf (before ++ tail.text))
      (· == 0x3F) =
        tail.query?.map fun _ => String.utf8Len before + String.utf8Len tail.path := by
    have hposition := position?_delimited '?' (by decide) before h.path.1 tail.query?
      (delimited '#' tail.fragment?)
    rw [hfront, List.append_assoc, ← htext] at hposition
    exact hposition
  have hpathStop := getD_delimited '?' before tail.path tail.query?
  have hqueryStretch := map_delimited '?' (by decide) before tail.path tail.query?
  have hfragmentStretch := map_delimited '#' (by decide) before front tail.fragment?
  rw [hfront] at hpathStop hqueryStretch
  simp only [Span.behind] at hfragment hquery
  simp only [Fields.addTail, hlength, hfragment, getD_delimited, hquery, hpathStop, hqueryStretch,
    hfragmentStretch]
  have hpath : (String.utf8Len before < String.utf8Len before + String.utf8Len tail.path) =
      ¬ tail.path.isEmpty = true := by
    rw [List.isEmpty_iff, ← String.utf8Len_eq_zero, Nat.lt_add_right_iff_pos, Nat.pos_iff_ne_zero]
  rw [Tail.addTo, List.append_assoc before _ (delimited '?' _), hfront]
  simp only [hpath, ite_not, Span.behind]

/-! ## Hosts and ports -/

theorem portOf?_bytesOf (digits : List Char) :
    Fields.portOf? (bytesOf digits) = portNumber? digits := by
  rw [Fields.portOf?, portNumber?, isEmpty_bytesOf, all_bytesOf sameClass_digit]
  by_cases hdigits : digits.all Char.isDigit = true
  · have hmap : bytesOf digits = digits.map fun c => c.toNat.toUInt8 :=
      encode_ascii fun c hc => ascii_of_isDigit (List.all_eq_true.mp hdigits c hc)
    have hvalue : (bytesOf digits).decimalValue = Nat.ofDigitChars 10 digits 0 := by
      rw [hmap, Bytes.decimalValue, foldl_digits (List.all_eq_true.mp hdigits)]
    have hlength : (bytesOf digits).length = digits.length := by rw [hmap, List.length_map]
    rw [hvalue, hlength, hdigits, UInt16.size, maxPort]
    grind
  · rw [Bool.not_eq_true] at hdigits
    simp [hdigits]

theorem digitsBehindLiteral?_bytesOf (rest : List Char) :
    Fields.digitsBehindLiteral? (bytesOf rest) =
      match rest with
      | [] => some none
      | c :: digits => if c = ':' then some (some (bytesOf digits)) else none := by
  cases rest with
  | nil => rfl
  | cons c digits =>
    by_cases hc : c = ':'
    · rw [hc, bytesOf_cons_ascii (by decide)]
      rfl
    · obtain ⟨b, later, hbytes, hmem⟩ := exists_encodeChar c
      have hb : (b == Byte.colon) = (c == ':') := sameClass_beq ':' (by decide) c b hmem
      rw [beq_eq_false_iff_ne.mpr hc] at hb
      simp only [bytesOf_cons, hbytes, List.cons_append, Fields.digitsBehindLiteral?, hb,
        Bool.false_eq_true, if_false, hc]

/-- **An address literal ends at the first bracket behind it.** -/
theorem literal?_behind (before inner after : List Char) :
    Fields.literal? (bytesOf (before ++ ('[' :: inner) ++ after))
        (Span.behind before ('[' :: inner)) =
      (splitLiteral? inner).map fun split =>
        (Span.behind (before ++ split.1.opening) split.1.chars, split.2.map bytesOf) := by
  obtain ⟨⟨literal, rest?⟩, hcut⟩ : ∃ split, cut ']' inner = split := ⟨_, rfl⟩
  obtain ⟨rfl, hmem⟩ := cut_eq_iff.mp hcut
  have hmem : ']' ∉ '[' :: literal := by simpa using hmem
  have hclose : (bytesOf ('[' :: (literal ++ delimited ']' rest?))).findIdx? (· == 0x5D) =
      rest?.map fun _ => String.utf8Len ('[' :: literal) :=
    findIdx?_delimited ']' (by decide) hmem rest?
  rw [Fields.literal?, splitLiteral?, hcut, slice_behind]
  dsimp only
  rw [hclose]
  cases rest? with
  | none => rfl
  | some rest =>
    have htake : ((bytesOf ('[' :: (literal ++ ']' :: rest))).take
        (String.utf8Len ('[' :: literal))).drop 1 = bytesOf literal := by
      rw [← List.cons_append, take_bytesOf, bytesOf_cons_ascii (by decide)]
      rfl
    have hdrop : (bytesOf ('[' :: (literal ++ ']' :: rest))).drop
        (String.utf8Len ('[' :: literal) + 1) = bytesOf rest :=
      drop_bytesOf_cons (by decide) ('[' :: literal) rest
    have hhost : (⟨String.utf8Len before + 1,
        String.utf8Len before + String.utf8Len ('[' :: literal)⟩ : Span) =
          Span.behind (before ++ ['[']) literal := by
      have hbehind := behind_delimiter '[' (by decide) before [] literal
      rw [List.append_nil] at hbehind
      exact hbehind.symm
    simp only [Option.map_some, Option.bind_eq_bind, Option.bind_some, delimited, htake, hdrop,
      isEmpty_bytesOf, all_bytesOf sameClass_literal, digitsBehindLiteral?_bytesOf]
    split
    · rfl
    · rw [Span.behind, hhost]
      cases rest with
      | nil => rfl
      | cons c digits =>
        dsimp only
        split
        · rfl
        · rfl

/-- **A name ends at the first colon**, with the digits of a port behind it. -/
theorem name?_behind (before text after : List Char) :
    Fields.name? (bytesOf (before ++ text ++ after)) (Span.behind before text) =
      (splitName? text).map fun split =>
        (Span.behind (before ++ split.1.opening) split.1.chars, split.2.map bytesOf) := by
  obtain ⟨⟨name, port?⟩, hcut⟩ : ∃ split, cut ':' text = split := ⟨_, rfl⟩
  obtain ⟨rfl, hmem⟩ := cut_eq_iff.mp hcut
  have hcolon : (bytesOf (name ++ delimited ':' port?)).findIdx? (· == Byte.colon) =
      port?.map fun _ => String.utf8Len name := findIdx?_delimited ':' (by decide) hmem port?
  have hlength : (port?.map fun _ => String.utf8Len name).getD
      (bytesOf (name ++ delimited ':' port?)).length = String.utf8Len name := by
    have hgetD := getD_delimited ':' [] name port?
    rw [String.utf8Len_nil, Nat.zero_add, Nat.zero_add] at hgetD
    rwa [length_bytesOf]
  have hdigits : ((port?.map fun _ => String.utf8Len name).map fun colon =>
      (bytesOf (name ++ delimited ':' port?)).drop (colon + 1)) = port?.map bytesOf := by
    cases port? with
    | none => rfl
    | some port =>
      rw [Option.map_some, Option.map_some, delimited, drop_bytesOf_cons (by decide)]
      rfl
  rw [Fields.name?, splitName?, hcut, slice_behind]
  simp only [hcolon, hlength, take_bytesOf, hdigits, isEmpty_bytesOf, all_bytesOf sameClass_host]
  split
  · rfl
  · simp only [Option.map_some, Host.opening, List.append_nil]
    rfl

theorem hostAndDigits?_behind (before text after : List Char) :
    Fields.hostAndDigits? (bytesOf (before ++ text ++ after)) (Span.behind before text) =
      (if text.head? = some '[' then splitLiteral? text.tail else splitName? text).map fun split =>
        (Span.behind (before ++ split.1.opening) split.1.chars, split.2.map bytesOf) := by
  have hbracket : (bytesOf text).head? = some 0x5B ↔ text.head? = some '[' :=
    head?_bytesOf_eq_some (c := '[') (by decide)
  rw [Fields.hostAndDigits?, slice_behind]
  simp only [beq_iff_eq, hbracket]
  split
  · next h =>
    obtain ⟨inner, rfl⟩ := List.head?_eq_some_iff.mp h
    exact literal?_behind before inner after
  · exact name?_behind before text after

/-- **A host is where it is found**, behind the bracket of an address literal. -/
theorem addHost?_behind (scheme? userinfo? : Option Span) (before text after : List Char) :
    Fields.addHost? { scheme?, userinfo? } (bytesOf (before ++ text ++ after))
        (Span.behind before text) =
      (splitHost? text).map fun split =>
        { scheme?
          userinfo?
          host? := some (Span.behind (before ++ split.1.opening) split.1.chars)
          port? := split.2.bind portNumber? } := by
  rw [Fields.addHost?, splitHost?, hostAndDigits?_behind]
  cases if text.head? = some '[' then splitLiteral? text.tail else splitName? text with
  | none => rfl
  | some split =>
    obtain ⟨host, port?⟩ := split
    cases port? with
    | none => rfl
    | some digits =>
      simp only [Option.map_some, Option.bind_eq_bind, Option.bind_some, portOf?_bytesOf,
        Option.filter_some, isPort, Option.all_some]
      obtain hport | ⟨port, hport⟩ := (portNumber? digits).eq_none_or_eq_some
      · simp [hport]
      · simp [hport]

/-! ## Authorities -/

/-- **An authority falls apart at its at sign.** -/
theorem addAuthority?_behind (scheme? : Option Span) (before text after : List Char) :
    Fields.addAuthority? { scheme? } (bytesOf (before ++ text ++ after))
        (Span.behind before text) =
      (splitAuthority? text).map fun (userinfo?, host, port?) =>
        { scheme?
          userinfo? := userinfo?.map (Span.behind before)
          host? := some (Span.behind (before ++ userinfoText userinfo? ++ host.opening) host.chars)
          port? := port?.bind portNumber? } := by
  obtain ⟨⟨userinfo, rest?⟩, hcut⟩ : ∃ split, cut '@' text = split := ⟨_, rfl⟩
  obtain ⟨rfl, hmem⟩ := cut_eq_iff.mp hcut
  have hcount : ∀ rest, (bytesOf (userinfo ++ rest)).count 0x40 = (bytesOf rest).count 0x40 := by
    intro rest
    rw [bytesOf_append, List.count_append, Nat.add_eq_right]
    exact count_bytesOf_of_not_mem (c := '@') (by decide) hmem
  rw [Fields.addAuthority?, splitAuthority?, hcut, slice_behind, hcount]
  cases rest? with
  | none =>
    rw [delimited, List.append_nil, bytesOf_nil, List.count_nil]
    dsimp only
    rw [addHost?_behind, Option.map_map]
    simp only [Function.comp_def, userinfoText, List.append_nil, Option.map_none]
  | some rest =>
    have hfind : (bytesOf (userinfo ++ '@' :: rest)).findIdx? (· == 0x40) =
        some (String.utf8Len userinfo) :=
      findIdx?_delimited '@' (by decide) hmem (some rest)
    have hone : (bytesOf ('@' :: rest)).count 0x40 = (bytesOf rest).count 0x40 + 1 :=
      count_bytesOf_cons (c := '@') (by decide) rest
    rw [delimited, hone, hfind]
    by_cases hat : '@' ∈ rest
    · have hbyte : 0x40 ∈ bytesOf rest := (mem_bytesOf (c := '@') (by decide)).mpr hat
      obtain ⟨n, hn⟩ := Nat.exists_eq_add_one.mpr (List.count_pos_iff.mpr hbyte)
      rw [hn]
      simp [hat]
    · have hnone : (bytesOf rest).count 0x40 = 0 :=
        count_bytesOf_of_not_mem (c := '@') (by decide) hat
      have hhost := addHost?_behind scheme? (some (Span.behind before userinfo))
        (before ++ userinfo ++ ['@']) rest after
      have hbytes : before ++ userinfo ++ ['@'] ++ rest ++ after =
          before ++ (userinfo ++ '@' :: rest) ++ after := by
        simp only [List.append_assoc, List.cons_append, List.nil_append]
      rw [hbytes, behind_delimiter '@' (by decide)] at hhost
      have hcontains : rest.contains '@' = false := by simpa using hat
      rw [hnone]
      simp only [Nat.zero_add, hcontains, Bool.false_or, Option.bind_eq_bind, Option.bind_some,
        take_bytesOf, all_bytesOf sameClass_userinfo]
      cases userinfo.all isUserinfoChar with
      | false => rfl
      | true =>
        refine hhost.trans ?_
        rw [Bool.not_true, if_neg Bool.false_ne_true, Option.map_map]
        simp only [Function.comp_def, userinfoText, List.append_assoc, Option.map_some]

/-! ## Whole texts -/

/-- Behind a scheme and its mark there is an authority, and a tail behind that. -/
theorem addRest?_bytesOf (scheme after : List Char) :
    Fields.addRest? { scheme? := some (Span.behind [] scheme) }
        (bytesOf (scheme ++ [':', '/', '/'] ++ after))
        (String.utf8Len (scheme ++ [':', '/', '/'])) =
      (splitAuthority? (after.takeWhile (!endsAuthority ·))).map fun (userinfo?, host, port?) =>
        Parts.fields
          { origin? := some { scheme, userinfo?, host, port? }
            tail := splitTail (after.dropWhile (!endsAuthority ·)) } := by
  obtain ⟨authority, rest, rfl, hauthority, hrest⟩ := exists_run (!endsAuthority ·) after
  obtain ⟨before, hbefore⟩ : ∃ before, scheme ++ [':', '/', '/'] = before := ⟨_, rfl⟩
  have hstop : (Span.position? (Span.behind before (authority ++ rest))
      (bytesOf (before ++ (authority ++ rest))) endsOrigin).getD
        (bytesOf (before ++ (authority ++ rest))).length =
      String.utf8Len before + String.utf8Len authority := by
    have hslice := slice_behind before (authority ++ rest) []
    rw [List.append_nil] at hslice
    rw [Span.position?, hslice, findIdx?_bytesOf sameClass_endsOrigin
      (fun c hc => by simpa using hauthority c hc) (fun c hc => by simpa using hrest c hc)]
    cases rest with
    | nil => rw [List.append_nil, length_bytesOf, String.utf8Len_append]; rfl
    | cons => rfl
  have hspan : (⟨String.utf8Len before, (bytesOf (before ++ (authority ++ rest))).length⟩ : Span) =
      Span.behind before (authority ++ rest) := by
    rw [length_bytesOf, String.utf8Len_append]
    rfl
  have hadd := addAuthority?_behind (some (Span.behind [] scheme)) before authority rest
  rw [List.append_assoc] at hadd
  rw [hbefore, takeWhile_run hauthority hrest, dropWhile_run hauthority hrest, Fields.addRest?,
    hspan, hstop]
  refine (congrArg (Option.map _) hadd).trans ?_
  rw [Option.map_map]
  refine Option.map_congr fun split hsplit => ?_
  obtain ⟨userinfo?, host, port?⟩ := split
  obtain ⟨-, -, -, htext⟩ := splitAuthority?_eq_some_iff.mp hsplit
  obtain ⟨htail, hwell⟩ := text_splitTail rest
  have horigin : Origin.text { scheme, userinfo?, host, port? } = before ++ authority := by
    rw [Origin.text_eq, htext, ← hbefore, List.append_assoc]
    rfl
  have hjoin := addTail_text (Origin.fields { scheme, userinfo?, host, port? })
    (Origin.text { scheme, userinfo?, host, port? }) hwell
  rw [htail] at hjoin
  refine Eq.trans ?_ hjoin
  rw [horigin, Origin.fields, Origin.schemeText, hbefore,
    List.append_assoc before authority, String.utf8Len_append]
  rfl

theorem isPrefixOf_schemeMark (rest : List Char) :
    Fields.schemeMark.isPrefixOf (bytesOf rest) = true ↔ [':', '/', '/'] <+: rest := by
  have hmark : Fields.schemeMark.isPrefixOf (bytesOf rest) = [':', '/', '/'].isPrefixOf rest :=
    isPrefixOf_bytesOf [':', '/', '/'] (by decide) rest
  rw [hmark, List.isPrefixOf_iff_prefix]

/-- **A URL in absolute form falls apart behind its scheme.** -/
theorem ofAbsolute?_bytesOf (text : List Char) :
    Fields.ofAbsolute? (bytesOf text) = (splitAbsolute? text).map Parts.fields := by
  obtain ⟨scheme, rest, rfl, hscheme, hstop⟩ := exists_run Char.isAlpha text
  have hend : (bytesOf (scheme ++ rest)).findIdx?
      (fun b => !(Byte.isUpper b || Byte.isLower b)) =
        rest.head?.map fun _ => String.utf8Len scheme :=
    findIdx?_bytesOf sameClass_letter.not (fun c hc => by rw [hscheme c hc]; rfl)
      (fun c hc => by rw [hstop c hc]; rfl)
  have hempty : (String.utf8Len scheme == 0) = scheme.isEmpty := by
    rw [Bool.eq_iff_iff, beq_iff_eq, String.utf8Len_eq_zero, List.isEmpty_iff]
  rw [Fields.ofAbsolute?, splitAbsolute?, dropWhile_run hscheme hstop, takeWhile_run hscheme hstop,
    hend]
  by_cases hprefix : [':', '/', '/'] <+: rest
  · have hmark := (isPrefixOf_schemeMark rest).mpr hprefix
    obtain ⟨after, rfl⟩ := hprefix
    have hspan : (⟨0, String.utf8Len scheme⟩ : Span) = Span.behind [] scheme := by
      rw [Span.behind, String.utf8Len_nil, Nat.zero_add]
    have hstart : String.utf8Len (scheme ++ [':', '/', '/']) =
        String.utf8Len scheme + Fields.schemeMark.length := String.utf8Len_append ..
    have hrest := addRest?_bytesOf scheme after
    rw [List.append_assoc, hstart] at hrest
    have hhead : ([':', '/', '/'] ++ after).head? = some ':' := rfl
    rw [hhead, Option.map_some, Option.bind_eq_bind, Option.bind_some, drop_bytesOf, hmark, hempty,
      Bool.not_true, Bool.or_false, hspan, hrest]
    dsimp only [List.cons_append, List.nil_append]
    split
    · rfl
    · simp only [Option.map_map, Function.comp_def]
  · have hmark : Fields.schemeMark.isPrefixOf (bytesOf rest) = false := by
      rwa [Bool.eq_false_iff, ne_eq, isPrefixOf_schemeMark]
    have hother : ∀ after, rest ≠ ':' :: '/' :: '/' :: after := by
      rintro after rfl
      exact hprefix (List.prefix_append _ _)
    split
    · next after => exact absurd rfl (hother after)
    · cases rest.head? with
      | none => rfl
      | some c =>
        rw [Option.map_some, Option.bind_eq_bind, Option.bind_some, drop_bytesOf, hmark,
          Bool.not_false, Bool.or_true, if_pos rfl]
        rfl

/-- **The components of a text are where its parts lie.** -/
theorem ofBytes?_bytesOf (text : List Char) :
    Fields.ofBytes? (bytesOf text) = (Parts.ofText? text).map Parts.fields := by
  have hforbidden : (bytesOf text).any (fun b => b ≤ Byte.space || b == 0x7F) =
      !text.all isUrlChar := by
    rw [← all_bytesOf sameClass_url, List.all_eq_not_any_not, Bool.not_not]
    congr 1
    funext b
    exact forall_byte (p := fun b => (decide (b ≤ Byte.space) || b == 0x7F) = !Byte.isTarget b)
      (by decide +kernel) b
  have hasterisk : (bytesOf text == [0x2A]) = decide (text = ['*']) := by
    rw [Bool.eq_iff_iff, beq_iff_eq, decide_eq_true_eq, ← bytesOf_inj]
    rfl
  have hslash : (bytesOf text).head? = some 0x2F ↔ text.head? = some '/' :=
    head?_bytesOf_eq_some (c := '/') (by decide)
  rw [Fields.ofBytes?, Parts.ofText?, isEmpty_bytesOf, hforbidden, hasterisk]
  simp only [beq_iff_eq, hslash, decide_eq_true_eq]
  split
  · rfl
  · split
    · next h =>
      rw [h]
      rfl
    · split
      · obtain ⟨htail, hwell⟩ := text_splitTail text
        have hadd := addTail_text {} [] hwell
        rw [htail] at hadd
        exact congrArg some hadd
      · exact ofAbsolute?_bytesOf text

/-- What is found in a text of some parts. -/
theorem hold_of_ofText? {text : String} {parts : Parts}
    (h : Parts.ofText? text.toList = some parts) :
    Fields.ofBytes? (Utf8.encode text) = some parts.fields ∧ parts.fields.Hold text parts := by
  obtain ⟨htext, hwell⟩ := Parts.ofText?_eq_some_iff.mp h
  have hfound := ofBytes?_bytesOf text.toList
  have hhold := parts.hold_fields hwell.form
  rw [h, Option.map_some] at hfound
  rw [← htext, String.ofList_toList] at hhold
  exact ⟨hfound, hhold⟩

/-- **Parsing gives the URL of the parts of a text**, and fails if it has none. -/
theorem parse_eq (text : String) :
    parse text =
      match Parts.ofText? text.toList with
      | some parts => .ok (ofParts parts)
      | none => .error .invalidUrl := by
  rw [parse]
  cases hparts : Parts.ofText? text.toList with
  | none =>
    have hfound := ofBytes?_bytesOf text.toList
    rw [hparts] at hfound
    rw [show Fields.ofBytes? (Utf8.encode text) = none from hfound]
  | some parts =>
    obtain ⟨hfound, hhold⟩ := hold_of_ofText? hparts
    have hform := (Parts.ofText?_eq_some_iff.mp hparts).2.form
    rw [hfound]
    exact congrArg Except.ok (ofFields_eq_ofParts hhold hform)

theorem parse_eq_ok_iff {text : String} {url : Url} :
    parse text = .ok url ↔
      ∃ parts, Parts.ofText? text.toList = some parts ∧ url = ofParts parts := by
  rw [parse_eq]
  cases Parts.ofText? text.toList with
  | none => simp
  | some parts => simp [eq_comm]

end HttpWire.Url
