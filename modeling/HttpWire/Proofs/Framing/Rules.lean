import HttpWire.Framing
import HttpWire.Proofs.Grammar
import HttpWire.Proofs.Trim
/-!
# The rules of framing

The rules by which a head frames what follows it, read off its fields one by one: a rule asks
whether some field of a name has a value of some form, wherever it stands and whatever other fields
there are. Of these rules the first one that applies decides.
-/

namespace HttpWire.Framing

/-! ## What the rules ask for -/

/-- Whether some field of this name has a value like this. -/
def SomeValue (fields : List Field) (name : String) (p : Bytes → Prop) : Prop :=
  ∃ field ∈ fields, field.name.sameLetters (Utf8.encode name) = true ∧ p field.value

/-- Whether there is an `Upgrade`, and some `Connection` that lists `upgrade`. -/
def WantsUpgrade (fields : List Field) : Prop :=
  SomeValue fields "Upgrade" (fun _ => True) ∧
    SomeValue fields "Connection" fun value =>
      ∃ element ∈ value.listElements, isKeyword "upgrade" element = true

/-- Whether another protocol follows the head: that of a CONNECT request, of a request that wants
an upgrade, or of a response with status 101 that wants one. -/
def LeavesProtocol (kind : Kind) (start : Start) (fields : List Field) : Prop :=
  match kind with
  | .request => start.method = some .connect ∨ WantsUpgrade fields
  | .response => start.status = 101 ∧ WantsUpgrade fields

/-- Whether the head is that of a response whose status excludes a body. -/
def ExcludesBody (kind : Kind) (start : Start) : Prop :=
  kind = .response ∧
    (100 ≤ start.status ∧ start.status < 200 ∨ start.status = 204 ∨ start.status = 304)

/-- Whether the last coding that some `Transfer-Encoding` lists is `chunked`. -/
def EndsInChunked (fields : List Field) : Prop :=
  SomeValue fields "Transfer-Encoding" fun value =>
    ∃ last, value.listElements.getLast? = some last ∧ isKeyword "chunked" last = true

/-- A value that gives a length: at least one decimal digit, with blanks around the digits at most,
and a number that fits into 64 bits. -/
structure LengthValue (n : Nat) (value : Bytes) : Prop where
  parts : ∃ before digits after, value = before ++ (digits ++ after) ∧
    Blanks before ∧ Blanks after ∧ digits ≠ [] ∧ Denotes 10 digits n
  lt : n < 2 ^ 64

/-- Whether some `Content-Length` gives this length. -/
def GivesLength (fields : List Field) (n : Nat) : Prop :=
  SomeValue fields "Content-Length" (LengthValue n)

/-! ## That the rules ask for it -/

section
variable {fields : List Field} {name : String}

theorem mem_valuesOf {value : Bytes} : value ∈ valuesOf name fields ↔
    ∃ field ∈ fields, field.name.sameLetters (Utf8.encode name) = true ∧ field.value = value := by
  rw [valuesOf, List.mem_map]
  constructor
  · rintro ⟨field, hmem, rfl⟩
    obtain ⟨hfield, hname⟩ := List.mem_filter.mp hmem
    exact ⟨field, hfield, hname, rfl⟩
  · rintro ⟨field, hfield, hname, rfl⟩
    exact ⟨field, List.mem_filter.mpr ⟨hfield, hname⟩, rfl⟩

theorem someValue_iff {p : Bytes → Prop} :
    SomeValue fields name p ↔ ∃ value ∈ valuesOf name fields, p value := by
  constructor
  · rintro ⟨field, hfield, hname, hp⟩
    exact ⟨field.value, mem_valuesOf.mpr ⟨field, hfield, hname, rfl⟩, hp⟩
  · rintro ⟨value, hvalue, hp⟩
    obtain ⟨field, hfield, hname, rfl⟩ := mem_valuesOf.mp hvalue
    exact ⟨field, hfield, hname, hp⟩

theorem asksForUpgrade_iff : asksForUpgrade fields = true ↔ WantsUpgrade fields := by
  rw [asksForUpgrade, Bool.and_eq_true, and_comm, WantsUpgrade, someValue_iff, someValue_iff]
  refine and_congr ?_ ?_
  · cases valuesOf "Upgrade" fields <;> simp
  · simp only [List.any_eq_true]

theorem switchesProtocol_iff {kind : Kind} {start : Start} :
    switchesProtocol kind start fields = true ↔ LeavesProtocol kind start fields := by
  cases kind with
  | request =>
    simp only [switchesProtocol, Bool.or_eq_true, beq_iff_eq, asksForUpgrade_iff, LeavesProtocol]
  | response =>
    simp only [switchesProtocol, Bool.and_eq_true, beq_iff_eq, asksForUpgrade_iff, LeavesProtocol]

theorem excludesBody_iff {kind : Kind} {start : Start} :
    (kind == .response && Status.isBodyless start.status) = true ↔ ExcludesBody kind start := by
  simp only [Status.isBodyless, Bool.and_eq_true, Bool.or_eq_true, beq_iff_eq, decide_eq_true_eq,
    or_assoc, ExcludesBody]

/-- **A length is read as it is written.** -/
theorem lengthOf?_eq_some {value : Bytes} {n : Nat} :
    lengthOf? value = some n ↔ LengthValue n value := by
  have hdigits : ∀ digits : Bytes, (!digits.isEmpty && digits.all Byte.isDigit &&
      decide (digits.decimalValue < UInt64.size)) = true ↔
        digits ≠ [] ∧ (∀ b ∈ digits, Byte.isDigit b = true) ∧ digits.decimalValue < 2 ^ 64 := by
    intro digits
    have hsize : UInt64.size = 2 ^ 64 := rfl
    simp [hsize, and_assoc]
  rw [lengthOf?]
  constructor
  · intro h
    split at h
    · next hlength =>
      cases h
      obtain ⟨hne, hall, hlt⟩ := (hdigits _).mp hlength
      obtain ⟨before, after, hvalue, hbefore, hafter⟩ := value.exists_trim
      exact ⟨⟨before, value.trim, after, hvalue, blanks_iff.mpr hbefore, blanks_iff.mpr hafter, hne,
        denotes_decimal.mpr ⟨hall, rfl⟩⟩, hlt⟩
    · cases h
  · rintro ⟨⟨before, digits, after, rfl, hbefore, hafter, hne, hdenotes⟩, hlt⟩
    obtain ⟨hall, rfl⟩ := denotes_decimal.mp hdenotes
    have hplain : ∀ b ∈ digits, Byte.isBlank b = false := by
      intro b hb
      have hdigit := hall b hb
      revert hdigit
      exact Utf8.forall_byte (p := fun b => Byte.isDigit b = true → Byte.isBlank b = false)
        (by decide +kernel) b
    have htrim : Bytes.trim (before ++ (digits ++ after)) = digits :=
      Bytes.trim_between (fun b hb => hplain b (List.mem_of_mem_head? hb))
        (fun b hb => hplain b (List.mem_of_getLast? hb)) hne (blanks_iff.mp hbefore)
        (blanks_iff.mp hafter)
    rw [htrim, if_pos ((hdigits digits).mpr ⟨hne, hall, hlt⟩)]

theorem isChunked_iff : isChunked fields = true ↔ EndsInChunked fields := by
  simp only [isChunked, List.any_eq_true, EndsInChunked, someValue_iff]
  refine exists_congr fun value => and_congr_right fun _ => ?_
  cases value.listElements.getLast? <;> simp

end

/-! ## Lengths that agree -/

theorem map_of_mapM {α β : Type} {f : α → Option β} {values : List α} {results : List β}
    (h : values.mapM f = some results) : values.map f = results.map some := by
  induction values generalizing results with
  | nil =>
    cases h
    rfl
  | cons value values ih =>
    rw [List.mapM_cons] at h
    obtain ⟨first, hfirst, h⟩ := Option.bind_eq_some_iff.mp h
    obtain ⟨later, hlater, h⟩ := Option.bind_eq_some_iff.mp h
    cases h
    rw [List.map_cons, List.map_cons, hfirst, ih hlater]

/-- **Lengths agree or are an error.** Where a length was agreed on, there is one and every value
gives it. -/
theorem agreedLength_eq_ok {values : List Bytes} {length? : Option Nat}
    (h : agreedLength values = .ok length?) :
    (length? = none ∧ values = []) ∨
      ∃ n, length? = some n ∧ values ≠ [] ∧ ∀ value ∈ values, lengthOf? value = some n := by
  unfold agreedLength at h
  split at h
  · cases h
  · next hvalues =>
    cases h
    have hmap := map_of_mapM hvalues
    exact .inl ⟨rfl, List.map_eq_nil_iff.mp hmap⟩
  · next n others hvalues =>
    have hmap := map_of_mapM hvalues
    split at h
    · next hsame =>
      cases h
      refine .inr ⟨n, rfl, ?_, fun value hvalue => ?_⟩
      · rintro rfl
        cases hmap
      · have hmem := List.mem_map_of_mem (f := lengthOf?) hvalue
        rw [hmap] at hmem
        obtain ⟨m, hm, heq⟩ := List.mem_map.mp hmem
        rcases List.mem_cons.mp hm with rfl | hother
        · exact heq.symm
        · have hn := List.all_eq_true.mp hsame m hother
          rw [beq_iff_eq] at hn
          rw [← heq, hn]
    · cases h

/-- Lengths that are all the same are agreed on. -/
theorem agreedLength_of_forall {values : List Bytes} {n : Nat} (hne : values ≠ [])
    (h : ∀ value ∈ values, lengthOf? value = some n) : agreedLength values = .ok (some n) := by
  have hall : values.mapM lengthOf? = some (values.map fun _ => n) := by
    clear hne
    induction values with
    | nil => rfl
    | cons value values ih =>
      rw [List.mapM_cons, h value (by simp), ih fun later hlater => h later (by simp [hlater])]
      rfl
  obtain ⟨first, others, rfl⟩ := List.exists_cons_of_ne_nil hne
  rw [agreedLength, hall]
  simp

theorem error_of_agreedLength {values : List Bytes} {error : Error}
    (h : agreedLength values = .error error) : error = .invalidContentLength := by
  unfold agreedLength at h
  split at h
  · cases h
    rfl
  · cases h
  · split at h
    · cases h
    · cases h
      rfl

theorem error_of_ofFields {fields : List Field} {error : Error}
    (h : ofFields fields = .error error) : error = .invalidContentLength := by
  unfold ofFields at h
  split at h
  · cases h
  · cases hlength : agreedLength (valuesOf "Content-Length" fields) with
    | ok length? =>
      rw [hlength] at h
      cases h
    | error error' =>
      rw [hlength] at h
      cases h
      exact error_of_agreedLength hlength

/-- Lengths that are at odds are all that can be wrong with the framing of a head. -/
theorem error_of_ofHead {kind : Kind} {start : Start} {fields : List Field} {error : Error}
    (h : ofHead kind start fields = .error error) : error = .invalidContentLength := by
  unfold ofHead at h
  cases hfields : ofFields fields with
  | ok asked =>
    rw [hfields] at h
    cases h
  | error error' =>
    rw [hfields] at h
    cases h
    exact error_of_ofFields hfields

/-! ## Which rule decides -/

section
variable {kind : Kind} {start : Start} {fields : List Field} {framing : Framing}

theorem ofHead_eq_ok (h : ofHead kind start fields = .ok framing) :
    ∃ asked, ofFields fields = .ok asked ∧
      framing =
        if switchesProtocol kind start fields then .protocolSwitch
        else if kind == .response && Status.isBodyless start.status then .length 0
        else asked.getD (ofKind kind) := by
  unfold ofHead at h
  cases hfields : ofFields fields with
  | error error =>
    rw [hfields] at h
    cases h
  | ok asked =>
    rw [hfields] at h
    cases h
    exact ⟨asked, rfl, rfl⟩

/-- A switch of protocols comes first. -/
theorem framing_of_leaves (h : ofHead kind start fields = .ok framing)
    (hleaves : LeavesProtocol kind start fields) : framing = .protocolSwitch := by
  obtain ⟨asked, -, rfl⟩ := ofHead_eq_ok h
  rw [if_pos (switchesProtocol_iff.mpr hleaves)]

/-- Then comes a status that excludes a body. -/
theorem framing_of_excludes (h : ofHead kind start fields = .ok framing)
    (hstays : ¬ LeavesProtocol kind start fields) (hexcludes : ExcludesBody kind start) :
    framing = .length 0 := by
  obtain ⟨asked, -, rfl⟩ := ofHead_eq_ok h
  rw [if_neg (mt switchesProtocol_iff.mp hstays), if_pos (excludesBody_iff.mpr hexcludes)]

/-- Where neither applies, the fields decide, and the kind of message if they say nothing. -/
theorem framing_of_fields (h : ofHead kind start fields = .ok framing)
    (hstays : ¬ LeavesProtocol kind start fields) (hbody : ¬ ExcludesBody kind start) :
    ∃ asked, ofFields fields = .ok asked ∧ framing = asked.getD (ofKind kind) := by
  obtain ⟨asked, hasked, rfl⟩ := ofHead_eq_ok h
  refine ⟨asked, hasked, ?_⟩
  rw [if_neg (mt switchesProtocol_iff.mp hstays), if_neg (mt excludesBody_iff.mp hbody)]

/-- Chunks come before lengths. -/
theorem framing_of_chunked (h : ofHead kind start fields = .ok framing)
    (hstays : ¬ LeavesProtocol kind start fields) (hbody : ¬ ExcludesBody kind start)
    (hchunked : EndsInChunked fields) : framing = .chunked := by
  obtain ⟨asked, hasked, rfl⟩ := framing_of_fields h hstays hbody
  rw [ofFields, if_pos (isChunked_iff.mpr hchunked)] at hasked
  cases hasked
  rfl

/-- Where no chunks are asked for, the lengths decide, and the kind of message if there are
none. -/
theorem framing_of_lengths (h : ofHead kind start fields = .ok framing)
    (hstays : ¬ LeavesProtocol kind start fields) (hbody : ¬ ExcludesBody kind start)
    (hplain : ¬ EndsInChunked fields) :
    ((∀ n, ¬ GivesLength fields n) ∧ framing = ofKind kind) ∨
      ∃ n, framing = .length n ∧ ∀ m, GivesLength fields m ↔ m = n := by
  obtain ⟨asked, hasked, rfl⟩ := framing_of_fields h hstays hbody
  rw [ofFields, if_neg (mt isChunked_iff.mp hplain)] at hasked
  cases hlength : agreedLength (valuesOf "Content-Length" fields) with
  | error error =>
    rw [hlength] at hasked
    cases hasked
  | ok length? =>
    rw [hlength] at hasked
    cases hasked
    obtain ⟨rfl, hnone⟩ | ⟨n, rfl, hsome, hall⟩ := agreedLength_eq_ok hlength
    · left
      refine ⟨fun n hn => ?_, rfl⟩
      obtain ⟨value, hvalue, -⟩ := someValue_iff.mp hn
      rw [hnone] at hvalue
      cases hvalue
    · right
      refine ⟨n, rfl, fun m => ?_⟩
      rw [GivesLength, someValue_iff]
      constructor
      · rintro ⟨value, hvalue, hm⟩
        rw [← lengthOf?_eq_some, hall value hvalue] at hm
        exact (Option.some.inj hm).symm
      · rintro rfl
        obtain ⟨value, hvalue⟩ := List.exists_mem_of_ne_nil _ hsome
        exact ⟨value, hvalue, lengthOf?_eq_some.mp (hall value hvalue)⟩

/-- Nothing but the rule for it leads to a switch of protocols. -/
theorem leaves_of_protocolSwitch (h : ofHead kind start fields = .ok .protocolSwitch) :
    LeavesProtocol kind start fields := by
  refine Classical.byContradiction fun hstays => ?_
  by_cases hbody : ExcludesBody kind start
  · cases framing_of_excludes h hstays hbody
  by_cases hchunked : EndsInChunked fields
  · cases framing_of_chunked h hstays hbody hchunked
  obtain ⟨-, hkind⟩ | ⟨n, hlength, -⟩ := framing_of_lengths h hstays hbody hchunked
  · cases kind <;> cases hkind
  · cases hlength

/-- The body of a response lasts until the input ends only if no rule says anything else. -/
theorem unframed_of_untilEnd (h : ofHead kind start fields = .ok .untilEnd) :
    kind = .response ∧ ¬ LeavesProtocol kind start fields ∧ ¬ ExcludesBody kind start ∧
      ¬ EndsInChunked fields ∧ ∀ n, ¬ GivesLength fields n := by
  have hstays : ¬ LeavesProtocol kind start fields := by
    intro hleaves
    cases framing_of_leaves h hleaves
  have hbody : ¬ ExcludesBody kind start := by
    intro hexcludes
    cases framing_of_excludes h hstays hexcludes
  have hplain : ¬ EndsInChunked fields := by
    intro hchunked
    cases framing_of_chunked h hstays hbody hchunked
  obtain ⟨hnone, hkind⟩ | ⟨n, hlength, -⟩ := framing_of_lengths h hstays hbody hplain
  · refine ⟨?_, hstays, hbody, hplain, hnone⟩
    cases kind with
    | request => cases hkind
    | response => rfl
  · cases hlength

end

end HttpWire.Framing
