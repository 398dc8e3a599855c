import HttpWire.Proofs.Reader.Heads
/-!
# Codings in several lines

The codings of a body are one list, which a head may write in one `Transfer-Encoding` line, or in
several that the list is cut into. A reader asks every one of these lines whether it ends in
`chunked`, and not the list. So a head with several lines is read like the head with one as long as
no line in front of the last one ends in `chunked`, and otherwise only if the codings do not matter.
-/

namespace HttpWire

namespace Bytes

/-- Several comma-separated lists as one. -/
def joinLists (lists : List Bytes) : Bytes := List.intercalate [Byte.comma] lists

/-- **Joined lists have the elements of all.** -/
theorem listElements_joinLists {lists : List Bytes} (hne : lists ≠ []) :
    (joinLists lists).listElements = lists.flatMap listElements := by
  induction lists with
  | nil => exact absurd rfl hne
  | cons list lists ih =>
    cases lists with
    | nil => simp [joinLists]
    | cons next lists =>
      have hjoin : joinLists (list :: next :: lists) =
          list ++ Byte.comma :: joinLists (next :: lists) := by
        simp [joinLists]
      rw [hjoin, listElements, List.splitOn_append_cons_self, List.map_append, List.flatMap_cons,
        ← ih (List.cons_ne_nil next lists)]
      rfl

end Bytes

namespace Framing

/-! ## One list of codings -/

/-- Whether a field lists codings. -/
def isCoding (field : Field) : Bool := field.name.sameLetters (Utf8.encode "Transfer-Encoding")

/-- Whether some fields are others with one `Transfer-Encoding` in the place of all, which lists
what they list. -/
structure JoinsCodings (fields joined : List Field) : Prop where
  codings : valuesOf "Transfer-Encoding" joined =
    [Bytes.joinLists (valuesOf "Transfer-Encoding" fields)]
  others : joined.filter (!isCoding ·) = fields.filter (!isCoding ·)

/-- Whether the last of all codings that the fields list is `chunked`. -/
def ListEndsInChunked (fields : List Field) : Prop :=
  ∃ last, ((valuesOf "Transfer-Encoding" fields).flatMap Bytes.listElements).getLast? = some last ∧
    isKeyword "chunked" last = true

/-- The last coding of all is the last one of some line. -/
theorem ListEndsInChunked.endsInChunked {fields : List Field} (h : ListEndsInChunked fields) :
    EndsInChunked fields := by
  obtain ⟨last, hlast, hchunked⟩ := h
  rw [List.getLast?_flatMap] at hlast
  obtain ⟨value, hvalue, hlast⟩ := List.exists_of_findSome?_eq_some hlast
  exact someValue_iff.mpr ⟨value, List.mem_reverse.mp hvalue, last, hlast, hchunked⟩

theorem valuesOf_filter_others {name : String}
    (hname : (Utf8.encode name).foldCase ≠ (Utf8.encode "Transfer-Encoding").foldCase)
    (fields : List Field) : valuesOf name (fields.filter (!isCoding ·)) = valuesOf name fields := by
  rw [valuesOf, valuesOf, List.filter_filter]
  congr 1
  refine List.filter_congr fun field _ => ?_
  cases hsame : field.name.sameLetters (Utf8.encode name) with
  | false => rfl
  | true =>
    rw [Bytes.sameLetters, beq_iff_eq] at hsame
    simp [isCoding, Bytes.sameLetters, hsame, hname]

section
variable {fields joined : List Field} (h : JoinsCodings fields joined)
include h

theorem JoinsCodings.valuesOf_eq {name : String}
    (hname : (Utf8.encode name).foldCase ≠ (Utf8.encode "Transfer-Encoding").foldCase) :
    valuesOf name joined = valuesOf name fields := by
  rw [← valuesOf_filter_others hname joined, h.others, valuesOf_filter_others hname fields]

theorem JoinsCodings.switchesProtocol_eq (kind : Kind) (start : Start) :
    switchesProtocol kind start joined = switchesProtocol kind start fields := by
  have hasks : asksForUpgrade joined = asksForUpgrade fields := by
    rw [asksForUpgrade, h.valuesOf_eq (by decide), h.valuesOf_eq (by decide), asksForUpgrade]
  cases kind <;> rw [switchesProtocol, switchesProtocol, hasks]

/-- The one line ends in `chunked` exactly if the list does. -/
theorem JoinsCodings.endsInChunked_iff (hne : valuesOf "Transfer-Encoding" fields ≠ []) :
    EndsInChunked joined ↔ ListEndsInChunked fields := by
  rw [EndsInChunked, someValue_iff, h.codings, ListEndsInChunked]
  simp [Bytes.listElements_joinLists hne]

end

/-- A body is chunked where some line asks for chunks and no rule comes before that. -/
theorem ofHead_eq_chunked_iff {kind : Kind} {start : Start} {fields : List Field} :
    ofHead kind start fields = .ok .chunked ↔
      ¬ LeavesProtocol kind start fields ∧ ¬ ExcludesBody kind start ∧ EndsInChunked fields := by
  constructor
  · intro hframing
    have hstays : ¬ LeavesProtocol kind start fields := by
      intro hleaves
      cases framing_of_leaves hframing hleaves
    have hbody : ¬ ExcludesBody kind start := by
      intro hexcludes
      cases framing_of_excludes hframing hstays hexcludes
    refine ⟨hstays, hbody, ?_⟩
    by_contra hplain
    obtain ⟨-, hkind⟩ | ⟨n, hlength, -⟩ := framing_of_lengths hframing hstays hbody hplain
    · cases kind <;> cases hkind
    · cases hlength
  · rintro ⟨hstays, hbody, hchunked⟩
    rw [ofHead, ofFields, if_pos (isChunked_iff.mpr hchunked), Except.map,
      if_neg (mt switchesProtocol_iff.mp hstays), if_neg (mt excludesBody_iff.mp hbody)]
    rfl

/-- Whether the lines of codings say what they say as one list: none of them ends in `chunked`
unless the list does, or else the head is accepted without them and a rule that comes before
decides. -/
def ReadAsOneList (kind : Kind) (start : Start) (fields : List Field) : Prop :=
  (EndsInChunked fields → ListEndsInChunked fields) ∨
    (¬ LengthsAtOdds fields ∧ (LeavesProtocol kind start fields ∨ ExcludesBody kind start))

/-- **When one line of codings says the same as several.** -/
theorem JoinsCodings.ofHead_eq_iff {fields joined : List Field} (h : JoinsCodings fields joined)
    (hplain : ∀ field ∈ fields, field.IsPlain) (hne : valuesOf "Transfer-Encoding" fields ≠ [])
    (kind : Kind) (start : Start) :
    ofHead kind start fields = ofHead kind start joined ↔ ReadAsOneList kind start fields := by
  have hlist := h.endsInChunked_iff hne
  have hlengths : valuesOf "Content-Length" joined = valuesOf "Content-Length" fields :=
    h.valuesOf_eq (by decide)
  have hswitches := h.switchesProtocol_eq kind start
  by_cases hagree : EndsInChunked fields → ListEndsInChunked fields
  · have hchunked : isChunked fields = isChunked joined := by
      rw [Bool.eq_iff_iff, isChunked_iff, isChunked_iff, hlist]
      exact ⟨hagree, ListEndsInChunked.endsInChunked⟩
    have hsame : ofHead kind start fields = ofHead kind start joined := by
      rw [ofHead, ofHead, ofFields, ofFields, hchunked, hlengths, hswitches]
    exact ⟨fun _ => .inl hagree, fun _ => hsame⟩
  · -- The several lines ask for chunks, and the one line leaves the lengths to decide.
    obtain ⟨hany, hnone⟩ := Classical.not_imp.mp hagree
    have hfields : ofFields fields = .ok (some .chunked) := if_pos (isChunked_iff.mpr hany)
    have hjoined : ofFields joined =
        (agreedLength (valuesOf "Content-Length" fields)).map (·.map .length) := by
      rw [ofFields, if_neg (mt isChunked_iff.mp (mt hlist.mp hnone)), hlengths]
    rw [ofHead, ofHead, hfields, hjoined, hswitches, ReadAsOneList, or_iff_right hagree]
    cases hlength : agreedLength (valuesOf "Content-Length" fields) with
    | error error =>
      rw [error_of_agreedLength hlength, agreedLength_eq_error_iff hplain] at hlength
      simp [Except.map, hlength]
    | ok length? =>
      have hsound : ¬ LengthsAtOdds fields := by
        rw [← agreedLength_eq_error_iff hplain, hlength]
        simp
      have hother : (length?.map .length).getD (ofKind kind) ≠ .chunked := by
        cases length? <;> cases kind <;> simp [ofKind]
      by_cases hleaves : LeavesProtocol kind start fields
      · simp [Except.map, hsound, hleaves, switchesProtocol_iff.mpr hleaves]
      · by_cases hexcludes : ExcludesBody kind start
        · simp [Except.map, hsound, hexcludes, excludesBody_iff.mpr hexcludes]
        · simp [Except.map, hleaves, hexcludes, mt switchesProtocol_iff.mp hleaves,
            mt excludesBody_iff.mp hexcludes, hother.symm]

/-- What is read as chunked is one list if that ends in `chunked`, and only then. -/
theorem readAsOneList_iff_of_chunked {kind : Kind} {start : Start} {fields : List Field}
    (h : ofHead kind start fields = .ok .chunked) :
    ReadAsOneList kind start fields ↔ ListEndsInChunked fields := by
  obtain ⟨hstays, hbody, hchunked⟩ := ofHead_eq_chunked_iff.mp h
  constructor
  · rintro (hlist | ⟨-, hleaves | hexcludes⟩)
    · exact hlist hchunked
    · exact absurd hleaves hstays
    · exact absurd hexcludes hbody
  · exact fun hlist => .inl fun _ => hlist

end Framing

namespace Reader

variable {kind : Kind}

/-! ## Readers behind the two heads -/

/-- Behind a head the state tells its framing. -/
theorem State.afterHead_injective : Function.Injective State.afterHead := by
  intro framing framing' h
  rcases framing with - | (- | n) | - | - <;> rcases framing' with - | (- | m) | - | - <;>
    simp_all [State.afterHead, State.idle]

theorem State.afterHead_ne_failed (framing : Framing) (error : Error) :
    State.afterHead framing ≠ .failed error := by
  cases framing with
  | length n => cases n <;> exact nofun
  | _ => exact nofun

theorem behindHead_eq_iff {r : Reader kind} {start : Start} {fields fields' : List Field} :
    r.behindHead start fields = r.behindHead start fields' ↔
      Framing.ofHead kind start fields = Framing.ofHead kind start fields' := by
  constructor
  · intro h
    have hstate := congrArg Reader.state h
    rw [behindHead, behindHead] at hstate
    cases hfirst : Framing.ofHead kind start fields with
    | error error =>
      cases hsecond : Framing.ofHead kind start fields' with
      | error error' =>
        rw [Framing.error_of_ofHead hfirst, Framing.error_of_ofHead hsecond]
      | ok framing =>
        rw [hfirst, hsecond] at hstate
        exact absurd hstate.symm (State.afterHead_ne_failed framing error)
    | ok framing =>
      cases hsecond : Framing.ofHead kind start fields' with
      | error error' =>
        rw [hfirst, hsecond] at hstate
        exact absurd hstate (State.afterHead_ne_failed framing error')
      | ok framing' =>
        rw [hfirst, hsecond] at hstate
        rw [State.afterHead_injective hstate]
  · intro h
    rw [behindHead, behindHead, h]

/-- **Codings in several lines are not one list.** A head with `Transfer-Encoding` lines and the
head in which one line lists all of what these list, both well-formed and within the limits, have
the same framing or the same error, and leave the reader the same in however many calls they come,
if none of the lines ends in `chunked` unless the whole list does, or if a switch of protocols or a
status that excludes a body decides and the lengths are sound. Otherwise, and only then, the two are
read differently: so a body that is read as chunked is one of which the list ends in `chunked`
exactly if the two heads agree. -/
theorem codings_agree_iff (r : Reader kind) (before block joined : Bytes) (head head' : Head)
    (start : Start) (hidle : r.state = .idle) (hbefore : r.ComesThrough before)
    (h : WellFormed kind r.limits block head start)
    (h' : WellFormed kind r.limits joined head' start)
    (hjoins : Framing.JoinsCodings head.fields head'.fields)
    (hne : Framing.valuesOf "Transfer-Encoding" head.fields ≠ []) :
    (Framing.ofHead kind start head.fields = Framing.ofHead kind start head'.fields ↔
        Framing.ReadAsOneList kind start head.fields) ∧
    (Framing.ofHead kind start head.fields = .ok .chunked →
      (Framing.ofHead kind start head.fields = Framing.ofHead kind start head'.fields ↔
        Framing.ListEndsInChunked head.fields)) ∧
    ∀ pieces pieces', (∀ piece ∈ pieces, piece ≠ []) → (∀ piece ∈ pieces', piece ≠ []) →
      pieces.flatten = before ++ block → pieces'.flatten = before ++ joined →
        ((r.feedAll pieces).reader = (r.feedAll pieces').reader ↔
          Framing.ReadAsOneList kind start head.fields) := by
  have hframing := hjoins.ofHead_eq_iff h.isPlain hne kind start
  refine ⟨hframing, fun hchunked =>
    hframing.trans (Framing.readAsOneList_iff_of_chunked hchunked), ?_⟩
  intro pieces pieces' hpiece hpiece' hpieces hpieces'
  rw [reader_feedAll_of_wellFormed hidle hbefore hpiece h hpieces,
    reader_feedAll_of_wellFormed hidle hbefore hpiece' h' hpieces', behindHead_eq_iff, hframing]

/-- A request with its codings in two lines. -/
def splitRequest (first second : String) : Bytes :=
  Utf8.encode ("POST / HTTP/1.1\r\nTransfer-Encoding: " ++ first ++
    "\r\nTransfer-Encoding: " ++ second ++ "\r\n\r\n")

/-- The request with both in one line. -/
def joinedRequest (codings : String) : Bytes :=
  Utf8.encode ("POST / HTTP/1.1\r\nTransfer-Encoding: " ++ codings ++ "\r\n\r\n")

/-- The head of these requests, with lines of these codings. -/
def codedHead (lines : List String) : Head where
  start := .request (Utf8.encode "POST") [0x2F] 1
  fields := lines.map (fieldOf "Transfer-Encoding")

/-- The start of these requests. -/
def postStart : Start := { method := some .post, version := 1 }

/-- A list that ends in `chunked` is read the same in two lines. -/
theorem gzipChunked_agree :
    let r : Reader .request := {}
    (r.ComesThrough [] ∧
        WellFormed .request r.limits (splitRequest "gzip" "chunked")
          (codedHead ["gzip", "chunked"]) postStart ∧
        WellFormed .request r.limits (joinedRequest "gzip,chunked")
          (codedHead ["gzip,chunked"]) postStart ∧
        Framing.JoinsCodings (codedHead ["gzip", "chunked"]).fields
          (codedHead ["gzip,chunked"]).fields) ∧
      Framing.ListEndsInChunked (codedHead ["gzip", "chunked"]).fields ∧
      (r.feedAll [splitRequest "gzip" "chunked"]).reader =
        (r.feedAll [joinedRequest "gzip,chunked"]).reader := by
  intro r
  have hthrough : r.ComesThrough [] := comesThrough_nil rfl
  have hsplit : WellFormed .request r.limits (splitRequest "gzip" "chunked")
      (codedHead ["gzip", "chunked"]) postStart :=
    wellFormed_of_parse (by decide +kernel) (by decide +kernel) (by decide +kernel)
  have hjoined : WellFormed .request r.limits (joinedRequest "gzip,chunked")
      (codedHead ["gzip,chunked"]) postStart :=
    wellFormed_of_parse (by decide +kernel) (by decide +kernel) (by decide +kernel)
  have hjoins : Framing.JoinsCodings (codedHead ["gzip", "chunked"]).fields
      (codedHead ["gzip,chunked"]).fields := ⟨by decide +kernel, by decide +kernel⟩
  have hlist : Framing.ListEndsInChunked (codedHead ["gzip", "chunked"]).fields :=
    ⟨Utf8.encode "chunked", by decide +kernel, by decide +kernel⟩
  obtain ⟨-, -, hreaders⟩ := codings_agree_iff r [] _ _ _ _ _ rfl hthrough hsplit hjoined hjoins
    (by decide +kernel)
  refine ⟨⟨hthrough, hsplit, hjoined, hjoins⟩, hlist, ?_⟩
  exact (hreaders [splitRequest "gzip" "chunked"] [joinedRequest "gzip,chunked"]
    (by decide +kernel) (by decide +kernel) (by simp) (by simp)).mpr (.inl fun _ => hlist)

/-- A line that ends in `chunked` is taken at its word, though the list goes on behind it. -/
theorem chunkedGzip_at_odds :
    let r : Reader .request := {}
    WellFormed .request r.limits (splitRequest "chunked" "gzip")
        (codedHead ["chunked", "gzip"]) postStart ∧
      WellFormed .request r.limits (joinedRequest "chunked,gzip")
        (codedHead ["chunked,gzip"]) postStart ∧
      Framing.JoinsCodings (codedHead ["chunked", "gzip"]).fields
        (codedHead ["chunked,gzip"]).fields ∧
      (r.feedAll [splitRequest "chunked" "gzip"]).reader.state = .body (.chunked .initial) ∧
      (r.feedAll [joinedRequest "chunked,gzip"]).reader.state = .idle := by
  intro r
  exact ⟨wellFormed_of_parse (by decide +kernel) (by decide +kernel) (by decide +kernel),
    wellFormed_of_parse (by decide +kernel) (by decide +kernel) (by decide +kernel),
    ⟨by decide +kernel, by decide +kernel⟩, by decide +kernel, by decide +kernel⟩

end Reader

end HttpWire
