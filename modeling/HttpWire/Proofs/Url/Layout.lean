import HttpWire.Proofs.Url.Parts
import HttpWire.Url.Parse
import Mathlib.Data.Option.Basic
import Mathlib.Data.String.Basic
/-!
# Where the components lie

The components of a URL are stretches of the bytes of its text. Each stretch starts and stops
between characters and holds its component, and the stretches come one after the other. What they
cut out of the text is the URL of its parts.
-/

namespace HttpWire.Url

/-! ## Stretches -/

/-- A stretch that holds a component: it is within the text, both of its ends are between
characters, and the component is what it cuts out. -/
structure Span.Holds (text : String) (span : Span) (component : List Char) : Prop where
  start_le : span.start ≤ span.stop
  stop_le : span.stop ≤ text.utf8ByteSize
  start_valid : String.Pos.Raw.IsValid text ⟨span.start⟩
  stop_valid : String.Pos.Raw.IsValid text ⟨span.stop⟩
  extract_eq : String.Pos.Raw.extract text ⟨span.start⟩ ⟨span.stop⟩ = String.ofList component

/-- The stretch of a part that comes behind some characters. -/
def Span.behind (before part : List Char) : Span :=
  ⟨String.utf8Len before, String.utf8Len before + String.utf8Len part⟩

/-- Behind some characters there is a boundary between characters. -/
theorem isValid_utf8Len (before after : List Char) :
    String.Pos.Raw.IsValid (String.ofList (before ++ after)) ⟨String.utf8Len before⟩ := by
  rw [String.Pos.Raw.isValid_iff_exists_append]
  refine ⟨String.ofList before, String.ofList after, String.ofList_append, ?_⟩
  rw [String.rawEndPos, String.utf8ByteSize_ofList]

theorem Span.holds_behind (before part after : List Char) :
    (behind before part).Holds (String.ofList (before ++ part ++ after)) part where
  start_le := Nat.le_add_right _ _
  stop_le := by
    rw [String.utf8ByteSize_ofList, String.utf8Len_append, String.utf8Len_append]
    exact Nat.le_add_right _ _
  start_valid := by
    rw [List.append_assoc]
    exact isValid_utf8Len before (part ++ after)
  stop_valid := by
    rw [behind, ← String.utf8Len_append]
    exact isValid_utf8Len (before ++ part) after
  extract_eq := String.extract_of_valid before part after

theorem rel_holds_behind {text before : List Char} {part? : Option (List Char)}
    (h : ∀ part ∈ part?, before ++ part <+: text) :
    Option.Rel (Span.Holds (String.ofList text)) (part?.map (Span.behind before)) part? := by
  cases part? with
  | none => exact .none
  | some part =>
    obtain ⟨after, rfl⟩ := h part rfl
    exact .some (Span.holds_behind before part after)

/-! ## Stretches in order -/

/-- Stretches one after the other, from one offset on and up to another one. -/
inductive InOrder : Nat → List Span → Nat → Prop where
  | nil {low high : Nat} (h : low ≤ high) : InOrder low [] high
  | cons {low high : Nat} {span : Span} {stretches : List Span} (hstart : low ≤ span.start)
      (hspan : span.start ≤ span.stop) (hrest : InOrder span.stop stretches high) :
      InOrder low (span :: stretches) high

variable {low mid high : Nat} {stretches others : List Span}

theorem InOrder.le_of_mem (h : InOrder low stretches high) {span : Span} (hmem : span ∈ stretches) :
    low ≤ span.start := by
  induction h with
  | nil => cases hmem
  | cons hstart hspan _ ih =>
    rcases List.mem_cons.mp hmem with rfl | hmem
    · exact hstart
    · exact Nat.le_trans (Nat.le_trans hstart hspan) (ih hmem)

theorem InOrder.of_le (hlow : low ≤ mid) (h : InOrder mid stretches high) :
    InOrder low stretches high := by
  cases h with
  | nil h => exact .nil (Nat.le_trans hlow h)
  | cons hstart hspan hrest => exact .cons (Nat.le_trans hlow hstart) hspan hrest

theorem InOrder.append (h : InOrder low stretches mid) (hothers : InOrder mid others high) :
    InOrder low (stretches ++ others) high := by
  induction h with
  | nil h => exact hothers.of_le h
  | cons hstart hspan _ ih => exact .cons hstart hspan (ih hothers)

/-- **No stretch reaches into one behind it.** -/
theorem InOrder.pairwise (h : InOrder low stretches high) :
    stretches.Pairwise fun a b => a.stop ≤ b.start := by
  induction h with
  | nil => exact .nil
  | cons _ _ hrest ih => exact .cons (fun _ => hrest.le_of_mem) ih

/-- The stretch of an optional part, among the characters that it belongs to. -/
theorem inOrder_behind (before : List Char) (part? : Option (List Char)) (text : List Char)
    (h : ∀ part ∈ part?, String.utf8Len part ≤ String.utf8Len text) :
    InOrder (String.utf8Len before) (part?.map (Span.behind before)).toList
      (String.utf8Len (before ++ text)) := by
  rw [String.utf8Len_append]
  cases part? with
  | none => exact .nil (Nat.le_add_right _ _)
  | some part =>
    exact .cons (Nat.le_refl _) (Nat.le_add_right _ _) (.nil (Nat.add_le_add_left (h part rfl) _))

/-- The stretch of an optional part behind its delimiter. -/
theorem inOrder_delimited (before : List Char) (delimiter : Char) (part? : Option (List Char)) :
    InOrder (String.utf8Len before)
      (part?.map (Span.behind (before ++ [delimiter]))).toList
      (String.utf8Len (before ++ delimited delimiter part?)) := by
  cases part? with
  | none => exact .nil (by rw [delimited, List.append_nil])
  | some part =>
    have hbehind := inOrder_behind (before ++ [delimiter]) (some part) part
      (by rintro _ ⟨⟩; exact Nat.le_refl _)
    rw [List.append_assoc] at hbehind
    exact hbehind.of_le (by rw [String.utf8Len_append]; exact Nat.le_add_right _ _)

/-! ## Where the parts lie -/

/-- The stretches of the components that have one, in the order of the text. -/
def Fields.spans (fields : Fields) : List Span :=
  fields.scheme?.toList ++ fields.userinfo?.toList ++ fields.host?.toList ++ fields.path?.toList ++
    fields.query?.toList ++ fields.fragment?.toList

/-- What stands before the characters of a host. -/
def Host.opening : Host → List Char
  | .name _ => []
  | .literal _ => ['[']

/-- A scheme with its mark. -/
def Origin.schemeText (origin : Origin) : List Char := origin.scheme ++ [':', '/', '/']

/-- Where the components of an origin are. -/
def Origin.fields (origin : Origin) : Fields where
  scheme? := some (Span.behind [] origin.scheme)
  userinfo? := origin.userinfo?.map (Span.behind origin.schemeText)
  host? := some (Span.behind
    (origin.schemeText ++ userinfoText origin.userinfo? ++ origin.host.opening) origin.host.chars)
  port? := origin.port?.bind portNumber?

/-- Adds where the components of a tail are that comes behind some characters. An empty path is
none. -/
def Tail.addTo (tail : Tail) (fields : Fields) (before : List Char) : Fields :=
  { fields with
    path? := if tail.path.isEmpty then none else some (Span.behind before tail.path)
    query? := tail.query?.map (Span.behind (before ++ tail.path ++ ['?']))
    fragment? := tail.fragment?.map
      (Span.behind (before ++ tail.path ++ delimited '?' tail.query? ++ ['#'])) }

/-- Where the components of a URL are. -/
def Parts.fields (parts : Parts) : Fields :=
  match parts.origin? with
  | none => parts.tail.addTo {} []
  | some origin => parts.tail.addTo origin.fields origin.text

/-! ## What the stretches hold -/

/-- Stretches that hold the parts of a text, one after the other: the scheme, the user information,
the host without brackets, the path, if it is not empty, the query and the fragment. Of the port
there is the number. -/
structure Fields.Hold (fields : Fields) (text : String) (parts : Parts) : Prop where
  scheme : Option.Rel (Span.Holds text) fields.scheme? (parts.origin?.map Origin.scheme)
  userinfo : Option.Rel (Span.Holds text) fields.userinfo? (parts.origin?.bind Origin.userinfo?)
  host : Option.Rel (Span.Holds text) fields.host?
    (parts.origin?.map fun origin => origin.host.chars)
  port : fields.port? = (parts.origin?.bind Origin.port?).map fun digits =>
    (Nat.ofDigitChars 10 digits 0).toUInt16
  path : Option.Rel (Span.Holds text) fields.path?
    (if parts.tail.path = [] then none else some parts.tail.path)
  query : Option.Rel (Span.Holds text) fields.query? parts.tail.query?
  fragment : Option.Rel (Span.Holds text) fields.fragment? parts.tail.fragment?
  ordered : fields.spans.Pairwise fun a b => a.stop ≤ b.start

theorem Host.text_eq (host : Host) :
    ∃ closing, host.text = host.opening ++ host.chars ++ closing := by
  cases host with
  | name chars => exact ⟨[], by rw [text, opening, List.append_nil]; rfl⟩
  | literal chars => exact ⟨[']'], rfl⟩

/-- The text of an origin, up to the characters of its host and behind them. -/
theorem Origin.text_split (origin : Origin) : ∃ closing,
    origin.text = origin.schemeText ++ userinfoText origin.userinfo? ++ origin.host.opening ++
      origin.host.chars ++ closing ++ delimited ':' origin.port? := by
  obtain ⟨closing, htext⟩ := origin.host.text_eq
  refine ⟨closing, ?_⟩
  rw [Origin.text_eq, authorityText, htext, schemeText]
  simp only [List.append_assoc, List.cons_append, List.nil_append]

/-! ### Tails -/

/-- Some characters and a tail, component by component. -/
theorem Tail.append_text (before : List Char) (tail : Tail) :
    before ++ tail.text =
      before ++ tail.path ++ delimited '?' tail.query? ++ delimited '#' tail.fragment? := by
  rw [Tail.text]
  simp only [List.append_assoc]

theorem Tail.inOrder_addTo (tail : Tail) (fields : Fields) (before : List Char)
    (h : InOrder 0 (fields.scheme?.toList ++ fields.userinfo?.toList ++ fields.host?.toList)
      (String.utf8Len before)) :
    InOrder 0 (tail.addTo fields before).spans (String.utf8Len (before ++ tail.text)) := by
  have hpath : InOrder (String.utf8Len before)
      (if tail.path.isEmpty then none else some (Span.behind before tail.path)).toList
      (String.utf8Len (before ++ tail.path)) := by
    have hle : ∀ part ∈ some tail.path, String.utf8Len part ≤ String.utf8Len tail.path := by
      rintro _ ⟨⟩
      exact Nat.le_refl _
    split
    · exact .nil (by rw [String.utf8Len_append]; exact Nat.le_add_right _ _)
    · exact inOrder_behind before _ _ hle
  rw [append_text]
  exact ((h.append hpath).append (inOrder_delimited _ '?' _)).append (inOrder_delimited _ '#' _)

/-- The stretches of a tail hold its components. -/
theorem Tail.rel_addTo (fields : Fields) (before : List Char) (tail : Tail) :
    Option.Rel (Span.Holds (String.ofList (before ++ tail.text))) (tail.addTo fields before).path?
        (if tail.path = [] then none else some tail.path) ∧
      Option.Rel (Span.Holds (String.ofList (before ++ tail.text)))
        (tail.addTo fields before).query? tail.query? ∧
      Option.Rel (Span.Holds (String.ofList (before ++ tail.text)))
        (tail.addTo fields before).fragment? tail.fragment? := by
  rw [append_text]
  refine ⟨?_, rel_holds_behind ?_, rel_holds_behind ?_⟩
  · rw [addTo]
    dsimp only
    by_cases hpath : tail.path = []
    · rw [if_pos hpath, hpath]
      exact .none
    · rw [if_neg hpath, if_neg (by simpa using hpath), List.append_assoc (before ++ tail.path)]
      exact .some (Span.holds_behind before tail.path _)
  · intro query hquery
    rw [Option.mem_def.mp hquery, delimited, List.append_assoc (before ++ tail.path) ['?']]
    exact List.prefix_append _ _
  · intro fragment hfragment
    rw [Option.mem_def.mp hfragment, delimited, List.append_assoc _ ['#']]
    exact List.prefix_rfl

/-! ### Origins -/

theorem Origin.inOrder_fields (origin : Origin) :
    InOrder 0 (origin.fields.scheme?.toList ++ origin.fields.userinfo?.toList ++
      origin.fields.host?.toList) (String.utf8Len origin.text) := by
  obtain ⟨closing, htext⟩ := origin.text_split
  have hscheme : InOrder 0 (some (Span.behind [] origin.scheme)).toList
      (String.utf8Len origin.schemeText) := by
    refine inOrder_behind [] (some origin.scheme) origin.schemeText ?_
    rintro _ ⟨⟩
    rw [schemeText, String.utf8Len_append]
    exact Nat.le_add_right _ _
  have huserinfo : InOrder (String.utf8Len origin.schemeText)
      (origin.userinfo?.map (Span.behind origin.schemeText)).toList
      (String.utf8Len (origin.schemeText ++ userinfoText origin.userinfo?)) := by
    refine inOrder_behind origin.schemeText _ _ fun userinfo hmem => ?_
    rw [Option.mem_def.mp hmem, userinfoText, String.utf8Len_append]
    exact Nat.le_add_right _ _
  have hhost : InOrder
      (String.utf8Len (origin.schemeText ++ userinfoText origin.userinfo?))
      origin.fields.host?.toList (String.utf8Len origin.text) := by
    rw [htext, List.append_assoc, List.append_assoc]
    refine (inOrder_behind _ (some origin.host.chars) _ ?_).of_le ?_
    · rintro _ ⟨⟩
      rw [String.utf8Len_append]
      exact Nat.le_add_right _ _
    · rw [String.utf8Len_append (origin.schemeText ++ _)]
      exact Nat.le_add_right _ _
  exact (hscheme.append huserinfo).append hhost

/-- The stretches of an origin hold its components, whatever comes behind it. -/
theorem Origin.rel_fields (origin : Origin) (after : List Char) :
    Option.Rel (Span.Holds (String.ofList (origin.text ++ after))) origin.fields.scheme?
        (some origin.scheme) ∧
      Option.Rel (Span.Holds (String.ofList (origin.text ++ after))) origin.fields.userinfo?
        origin.userinfo? ∧
      Option.Rel (Span.Holds (String.ofList (origin.text ++ after))) origin.fields.host?
        (some origin.host.chars) := by
  obtain ⟨closing, htext⟩ := origin.text_split
  rw [htext]
  refine ⟨?_, ?_, ?_⟩
  · simp only [schemeText, List.append_assoc]
    exact .some (Span.holds_behind [] origin.scheme _)
  · refine rel_holds_behind fun userinfo hmem => ?_
    rw [Option.mem_def.mp hmem, userinfoText]
    simp only [List.append_assoc, List.prefix_append_right_inj]
    exact List.prefix_append _ _
  · rw [List.append_assoc _ closing, List.append_assoc]
    exact .some (Span.holds_behind _ origin.host.chars _)

/-! ### Whole texts -/

/-- The number of a port, from its digits. -/
theorem portNumber?_bind {port? : Option (List Char)}
    (h : ∀ digits ∈ port?, IsPortText digits) :
    port?.bind portNumber? =
      port?.map fun digits => (Nat.ofDigitChars 10 digits 0).toUInt16 := by
  cases port? with
  | none => rfl
  | some digits => exact portNumber?_eq_some (h digits rfl)

/-- **The components of a URL are stretches of its text**, one after the other. -/
theorem Parts.hold_fields {parts : Parts} (h : parts.Form) :
    parts.fields.Hold (String.ofList parts.text) parts := by
  have hnone (tail : Tail) :
      Fields.Hold (tail.addTo {} []) (String.ofList tail.text) ⟨none, tail⟩ := by
    obtain ⟨hpath, hquery, hfragment⟩ := tail.rel_addTo {} []
    have horder := tail.inOrder_addTo {} [] (.nil (Nat.le_refl 0))
    exact ⟨.none, .none, .none, rfl, hpath, hquery, hfragment, horder.pairwise⟩
  cases h with
  | asterisk => exact hnone _
  | path => exact hnone _
  | @absolute origin tail horigin =>
    obtain ⟨hscheme, huserinfo, hhost⟩ := origin.rel_fields tail.text
    obtain ⟨hpath, hquery, hfragment⟩ := tail.rel_addTo origin.fields origin.text
    exact ⟨hscheme, huserinfo, hhost, portNumber?_bind horigin.port, hpath, hquery, hfragment,
      (tail.inOrder_addTo _ _ origin.inOrder_fields).pairwise⟩

/-- The port that is given, or else implied by the scheme. -/
theorem Parts.Form.getD_port {parts : Parts} (h : parts.Form) :
    ((parts.origin?.bind Origin.port?).map fun digits =>
      (Nat.ofDigitChars 10 digits 0).toUInt16).getD
        (((parts.origin?.map fun origin => String.ofList origin.scheme).bind defaultPort?).getD 0) =
      (parts.origin?.map Origin.port).getD 0 := by
  cases h with
  | asterisk => rfl
  | path => rfl
  | @absolute origin tail horigin =>
    rw [Option.bind_some, Option.map_some, Option.map_some, Option.bind_some, Option.getD_some,
      Origin.port]
    cases hdigits : origin.port? with
    | none => rfl
    | some digits =>
      dsimp only
      rw [portNumber?_eq_some (horigin.port digits hdigits)]
      rfl

/-- **What the stretches cut out of a text is the URL of its parts.** -/
theorem ofFields_eq_ofParts {fields : Fields} {text : String} {parts : Parts}
    (h : fields.Hold text parts) (hform : parts.Form) : ofFields text fields = ofParts parts := by
  have hcut {span? : Option Span} {part? : Option (List Char)}
      (hrel : Option.Rel (Span.Holds text) span? part?) :
      (span?.map fun span => String.Pos.Raw.extract text ⟨span.start⟩ ⟨span.stop⟩) =
        part?.map String.ofList := by
    cases hrel with
    | none => rfl
    | some hholds => exact congrArg some hholds.extract_eq
  have hscheme := hcut h.scheme
  have hpath := hcut h.path
  have hparams : (fields.query?.map fun query =>
      queryParams (String.Pos.Raw.extract text ⟨query.start⟩ ⟨query.stop⟩).toList) =
        parts.tail.query?.map queryParams := by
    have hquery := congrArg (Option.map fun query => queryParams query.toList) (hcut h.query)
    simpa only [Option.map_map, Function.comp_def, String.toList_ofList] using hquery
  rw [Option.map_map, Function.comp_def] at hscheme
  rw [apply_ite (Option.map String.ofList)] at hpath
  simp only [ofFields, ofParts, hscheme, h.port, hform.getD_port, hcut h.userinfo, hcut h.host,
    hpath, hparams, hcut h.fragment, Option.map_map, Function.comp_def, List.isEmpty_iff,
    Option.map_none, Option.map_some]

end HttpWire.Url
