import HttpWire.Proofs.Framing.Rules
import HttpWire.Proofs.Head.Written
import Mathlib.Algebra.Group.Nat.Defs
/-!
# The lines of a head as a set

What a head says about the message it begins depends on the field lines that it has and on nothing
else: not on their order, not on how often one of them stands there, and not on the letter case of
names. The lengths among them are at odds if one is not a length, or if any two differ, wherever the
two stand.
-/

namespace HttpWire

/-- A field line without regard to the letter case of the name. -/
def Field.folded (field : Field) : Field := ⟨field.name.foldCase, field.value⟩

namespace Framing

/-! ## The same lines -/

/-- Whether two lists of fields hold the same lines, in any order and any number, with names in any
letter case. -/
def SameLines (fields fields' : List Field) : Prop :=
  ∀ line, line ∈ fields.map Field.folded ↔ line ∈ fields'.map Field.folded

theorem sameLines_of_perm {fields fields' : List Field}
    (h : (fields.map Field.folded).Perm (fields'.map Field.folded)) : SameLines fields fields' :=
  fun _ => h.mem_iff

theorem someValue_iff_folded {fields : List Field} {name : String} {p : Bytes → Prop} :
    SomeValue fields name p ↔
      ∃ line ∈ fields.map Field.folded, line.name = (Utf8.encode name).foldCase ∧ p line.value := by
  constructor
  · rintro ⟨field, hfield, hname, hp⟩
    rw [Bytes.sameLetters, beq_iff_eq] at hname
    exact ⟨field.folded, List.mem_map_of_mem hfield, hname, hp⟩
  · rintro ⟨line, hline, hname, hp⟩
    obtain ⟨field, hfield, rfl⟩ := List.mem_map.mp hline
    exact ⟨field, hfield, by rwa [Bytes.sameLetters, beq_iff_eq], hp⟩

/-- Lengths are agreed on, or there are none, exactly in these cases. -/
theorem agreedLength_eq_ok_iff {values : List Bytes} {length? : Option Nat} :
    agreedLength values = .ok length? ↔
      (length? = none ∧ values = []) ∨
        ∃ n, length? = some n ∧ values ≠ [] ∧ ∀ value ∈ values, lengthOf? value = some n := by
  constructor
  · exact agreedLength_eq_ok
  · rintro (⟨rfl, rfl⟩ | ⟨n, rfl, hne, hall⟩)
    · rfl
    · exact agreedLength_of_forall hne hall

/-- It does not matter in which order values stand, and how often. -/
theorem agreedLength_congr {values values' : List Bytes}
    (h : ∀ value, value ∈ values ↔ value ∈ values') : agreedLength values = agreedLength values' := by
  have hok : ∀ length?, agreedLength values = .ok length? ↔ agreedLength values' = .ok length? := by
    intro length?
    simp only [agreedLength_eq_ok_iff, ne_eq, List.eq_nil_iff_forall_not_mem, h]
  cases hvalues : agreedLength values with
  | ok length? => exact ((hok length?).mp hvalues).symm
  | error error =>
    cases hvalues' : agreedLength values' with
    | ok length? =>
      rw [(hok length?).mpr hvalues'] at hvalues
      cases hvalues
    | error error' => rw [error_of_agreedLength hvalues, error_of_agreedLength hvalues']

section
variable {fields fields' : List Field} (h : SameLines fields fields')
include h

/-- **What a rule asks of the lines** it asks of the set of them. -/
theorem SameLines.someValue_iff {name : String} {p : Bytes → Prop} :
    SomeValue fields name p ↔ SomeValue fields' name p := by
  simp only [someValue_iff_folded, h _]

theorem SameLines.switchesProtocol_eq (kind : Kind) (start : Start) :
    switchesProtocol kind start fields = switchesProtocol kind start fields' := by
  have hwants : WantsUpgrade fields ↔ WantsUpgrade fields' :=
    and_congr h.someValue_iff h.someValue_iff
  rw [Bool.eq_iff_iff, switchesProtocol_iff, switchesProtocol_iff]
  cases kind with
  | request => exact or_congr_right hwants
  | response => exact and_congr_right fun _ => hwants

theorem SameLines.ofFields_eq : ofFields fields = ofFields fields' := by
  have hchunked : isChunked fields = isChunked fields' := by
    rw [Bool.eq_iff_iff, isChunked_iff, isChunked_iff]
    exact h.someValue_iff
  have hvalues : ∀ value, value ∈ valuesOf "Content-Length" fields ↔
      value ∈ valuesOf "Content-Length" fields' := by
    intro value
    have hsome : SomeValue fields "Content-Length" (· = value) ↔
        SomeValue fields' "Content-Length" (· = value) := h.someValue_iff
    rw [mem_valuesOf, mem_valuesOf]
    exact hsome
  rw [ofFields, ofFields, hchunked, agreedLength_congr hvalues]

/-- **The framing of a head depends on the set of its lines.** -/
theorem SameLines.ofHead_eq (kind : Kind) (start : Start) :
    ofHead kind start fields = ofHead kind start fields' := by
  rw [ofHead, ofHead, h.ofFields_eq, h.switchesProtocol_eq]

end

/-! ## Lengths at odds -/

/-- Whether a value is no length: it is empty, not all digits, or too large a number. -/
def NoLength (value : Bytes) : Prop :=
  value = [] ∨ (∃ b ∈ value, Byte.isDigit b = false) ∨ 2 ^ 64 ≤ value.decimalValue

/-- Whether some `Content-Length` is no length, or two of them denote different numbers. -/
def LengthsAtOdds (fields : List Field) : Prop :=
  SomeValue fields "Content-Length" NoLength ∨
    SomeValue fields "Content-Length" fun value =>
      SomeValue fields "Content-Length" fun other => value.decimalValue ≠ other.decimalValue

theorem lengthOf?_eq_some_iff {value : Bytes} (htrim : value.trim = value) {n : Nat} :
    lengthOf? value = some n ↔ ¬ NoLength value ∧ value.decimalValue = n := by
  have hsize : UInt64.size = 2 ^ 64 := rfl
  have hlength : (!value.isEmpty && value.all Byte.isDigit &&
      decide (value.decimalValue < UInt64.size)) = true ↔ ¬ NoLength value := by
    simp [NoLength, hsize, and_assoc]
  rw [lengthOf?]
  simp only [htrim]
  split
  · next hdigits => simp [hlength.mp hdigits]
  · next hdigits => simp [mt hlength.mpr hdigits]

section
variable {fields : List Field} (hplain : ∀ field ∈ fields, field.IsPlain)
include hplain

theorem trim_of_mem_valuesOf {name : String} {value : Bytes} (h : value ∈ valuesOf name fields) :
    value.trim = value := by
  obtain ⟨field, hfield, -, rfl⟩ := mem_valuesOf.mp h
  exact Bytes.trim_eq (hplain field hfield).value_head (hplain field hfield).value_last

/-- **Lengths that are at odds are an error**, and nothing else is. -/
theorem agreedLength_eq_error_iff :
    agreedLength (valuesOf "Content-Length" fields) = .error .invalidContentLength ↔
      LengthsAtOdds fields := by
  have hlength : ∀ value ∈ valuesOf "Content-Length" fields, ∀ n,
      lengthOf? value = some n ↔ ¬ NoLength value ∧ value.decimalValue = n :=
    fun value hvalue _ => lengthOf?_eq_some_iff (trim_of_mem_valuesOf hplain hvalue)
  simp only [LengthsAtOdds, someValue_iff]
  constructor
  · intro herror
    by_contra hagree
    obtain ⟨hall, hsame⟩ := not_or.mp hagree
    -- Every value is a length then, and the same as the first one.
    cases hvalues : valuesOf "Content-Length" fields with
    | nil =>
      rw [hvalues] at herror
      cases herror
    | cons first values =>
      have hfirst : first ∈ valuesOf "Content-Length" fields := by simp [hvalues]
      have hgives : ∀ value ∈ valuesOf "Content-Length" fields,
          lengthOf? value = some first.decimalValue := by
        intro value hvalue
        refine (hlength value hvalue _).mpr ⟨fun hno => hall ⟨value, hvalue, hno⟩, ?_⟩
        by_contra hne
        exact hsame ⟨value, hvalue, first, hfirst, hne⟩
      rw [agreedLength_of_forall (List.ne_nil_of_mem hfirst) hgives] at herror
      cases herror
  · intro hodds
    cases hagreed : agreedLength (valuesOf "Content-Length" fields) with
    | error error => rw [error_of_agreedLength hagreed]
    | ok length? =>
      exfalso
      obtain ⟨-, hnone⟩ | ⟨n, -, -, hall⟩ := agreedLength_eq_ok hagreed
      · simp [hnone] at hodds
      · have hgives : ∀ value ∈ valuesOf "Content-Length" fields,
            ¬ NoLength value ∧ value.decimalValue = n :=
          fun value hvalue => (hlength value hvalue n).mp (hall value hvalue)
        obtain ⟨value, hvalue, hno⟩ | ⟨value, hvalue, other, hother, hne⟩ := hodds
        · exact (hgives value hvalue).1 hno
        · exact hne ((hgives value hvalue).2.trans (hgives other hother).2.symm)

/-- **Which heads are refused for their lengths.** -/
theorem ofHead_eq_error_iff (kind : Kind) (start : Start) :
    ofHead kind start fields = .error .invalidContentLength ↔
      ¬ EndsInChunked fields ∧ LengthsAtOdds fields := by
  have hmap : ofHead kind start fields = .error .invalidContentLength ↔
      ofFields fields = .error .invalidContentLength := by
    rw [ofHead]
    cases ofFields fields <;> simp [Except.map]
  rw [hmap, ofFields]
  by_cases hchunked : EndsInChunked fields
  · rw [if_pos (isChunked_iff.mpr hchunked)]
    simp [hchunked]
  · rw [if_neg (mt isChunked_iff.mp hchunked), ← agreedLength_eq_error_iff hplain]
    cases agreedLength (valuesOf "Content-Length" fields) <;> simp [Except.map, hchunked]

end

end Framing

end HttpWire
