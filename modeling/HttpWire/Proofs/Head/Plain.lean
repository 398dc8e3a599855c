import HttpWire.Proofs.Head.Outcome
import HttpWire.Proofs.Head.Written
import HttpWire.Proofs.Text.Utf8
/-!
# What is read of a head

The fields of a head that the grammar accepts are plain: their lines could be written again and read
as the same fields. A target is text, and a status has at most three digits.
-/

namespace HttpWire

namespace Head

variable {input rest : Bytes}

/-! ## Field lines -/

theorem run_eq_done {inClass : UInt8 → Bool} {bytes : Bytes}
    (h : run inClass input = .done bytes rest) :
    input = bytes ++ rest ∧ (∀ b ∈ bytes, inClass b = true) ∧
      ∀ b ∈ rest.head?, inClass b = false := by
  obtain ⟨front, back, rfl, hfront, hback⟩ := exists_run inClass input
  rw [run, dropWhile_run hfront hback, takeWhile_run hfront hback] at h
  cases back with
  | nil => cases h
  | cons b back =>
    cases h
    exact ⟨rfl, hfront, hback⟩

theorem word_eq_done {inClass : UInt8 → Bool} {after : UInt8} {error : Error} {bytes : Bytes}
    (h : word inClass after error input = .done bytes rest) :
    bytes ≠ [] ∧ ∀ b ∈ bytes, inClass b = true := by
  obtain ⟨text, behind, hrun, h⟩ := Scan.bind_eq_done h
  obtain ⟨-, hall, -⟩ := run_eq_done hrun
  by_cases hempty : text.isEmpty = true
  · rw [if_pos hempty] at h
    cases h
  · rw [if_neg hempty] at h
    obtain ⟨-, -, rfl⟩ := Scan.map_eq_done h
    exact ⟨by simpa using hempty, hall⟩

theorem fieldValue_eq_done {value : Bytes} (h : fieldValue input = .done value rest) :
    (∀ b ∈ value, Byte.isText b = true) ∧ (∀ b ∈ value.head?, Byte.isBlank b = false) ∧
      ∀ b ∈ value.getLast?, Byte.isBlank b = false := by
  obtain ⟨blanks, line, hblanks, h⟩ := Scan.bind_eq_done h
  obtain ⟨text, htext, rfl⟩ := Scan.map_eq_done h
  obtain ⟨front, behind, hrun, h⟩ := Scan.bind_eq_done htext
  obtain ⟨-, -, rfl⟩ := Scan.map_eq_done h
  obtain ⟨-, -, hline⟩ := run_eq_done hblanks
  obtain ⟨rfl, hall, -⟩ := run_eq_done hrun
  refine ⟨fun b hb => ?_, Bytes.head?_trimEnd fun b hb => hline b ?_, Bytes.getLast?_trimEnd front⟩
  · obtain ⟨end', hend, -⟩ := Bytes.exists_trimEnd front
    refine hall b ?_
    rw [hend]
    exact List.mem_append_left _ hb
  · -- The text starts where the blanks in front of it stop.
    rw [List.head?_append, Option.mem_def.mp hb]
    rfl

theorem isPlain_of_fieldLine {field : Field} (h : fieldLine input = .done field rest) :
    field.IsPlain := by
  obtain ⟨name, line, hname, h⟩ := Scan.bind_eq_done h
  obtain ⟨value, hvalue, rfl⟩ := Scan.map_eq_done h
  obtain ⟨hne, htoken⟩ := word_eq_done hname
  obtain ⟨htext, hhead, hlast⟩ := fieldValue_eq_done hvalue
  exact ⟨hne, htoken, htext, hhead, hlast⟩

theorem isPlain_of_fieldLines {room : Nat} {fields : List Field}
    (h : fieldLines room input = .done fields rest) : ∀ field ∈ fields, field.IsPlain := by
  induction room generalizing input fields with
  | zero =>
    rw [fieldLines] at h
    split at h
    · obtain ⟨-, -, rfl⟩ := Scan.map_eq_done h
      simp
    · obtain ⟨field, behind, -, h⟩ := Scan.bind_eq_done h
      cases h
  | succ room ih =>
    rw [fieldLines] at h
    split at h
    · obtain ⟨-, -, rfl⟩ := Scan.map_eq_done h
      simp
    · obtain ⟨field, behind, hfield, h⟩ := Scan.bind_eq_done h
      obtain ⟨later, hlater, rfl⟩ := Scan.map_eq_done h
      exact List.forall_mem_cons.mpr ⟨isPlain_of_fieldLine hfield, ih hlater⟩

/-- **The fields of a head are plain.** -/
theorem isPlain_of_parse_done {kind : Kind} {maxFields : Nat} {head : Head}
    (h : parse kind maxFields input = .done head rest) : ∀ field ∈ head.fields, field.IsPlain := by
  obtain ⟨start, behind, -, h⟩ := Scan.bind_eq_done h
  obtain ⟨fields, hfields, rfl⟩ := Scan.map_eq_done h
  exact isPlain_of_fieldLines hfields

/-! ## Request lines -/

/-- The target of a request that is read is text without controls and spaces. -/
theorem target_of_parse_done {maxFields : Nat} {head : Head} {method target : Bytes} {version : Nat}
    (h : parse .request maxFields input = .done head rest)
    (hstart : head.start = .request method target version) :
    (∀ b ∈ target, Byte.isTarget b = true) ∧ ∃ text, target = Utf8.encode text := by
  obtain ⟨line, behind, hline, h⟩ := Scan.bind_eq_done h
  obtain ⟨fields, -, rfl⟩ := Scan.map_eq_done h
  obtain ⟨method', _, -, hline⟩ := Scan.bind_eq_done hline
  obtain ⟨target', _, htarget, hline⟩ := Scan.bind_eq_done hline
  obtain ⟨version', _, -, hline⟩ := Scan.bind_eq_done hline
  obtain ⟨_, -, rfl⟩ := Scan.map_eq_done hline
  cases hstart
  obtain ⟨bytes, _, hword, htarget⟩ := Scan.bind_eq_done htarget
  split at htarget
  · next htext =>
    cases htarget
    obtain ⟨text, htext⟩ := Option.isSome_iff_exists.mp htext
    exact ⟨(word_eq_done hword).2, text, Utf8.decode?_eq_some_iff.mp htext⟩
  · cases htarget

/-! ## Status lines -/

theorem digit_le_of_done {error : Error} {value : Nat} (h : digit error input = .done value rest) :
    value ≤ 9 := by
  cases input with
  | nil => cases h
  | cons b input =>
    rw [digit] at h
    split at h
    · next hdigit =>
      cases h
      rw [Byte.isDigit, Bool.and_eq_true, decide_eq_true_eq, decide_eq_true_eq,
        UInt8.le_iff_toNat_le, UInt8.le_iff_toNat_le] at hdigit
      have hle : b.toNat ≤ 0x39 := hdigit.2
      omega
    · cases h

theorem statusCode_le_of_done {code : UInt16} (h : statusCode input = .done code rest) :
    code ≤ 999 := by
  obtain ⟨hundreds, _, hfirst, h⟩ := Scan.bind_eq_done h
  obtain ⟨tens, _, hsecond, h⟩ := Scan.bind_eq_done h
  obtain ⟨ones, hthird, rfl⟩ := Scan.map_eq_done h
  have hhundreds := digit_le_of_done hfirst
  have htens := digit_le_of_done hsecond
  have hones := digit_le_of_done hthird
  have hsum : 100 * hundreds + 10 * tens + ones ≤ 999 := by omega
  rw [UInt16.le_iff_toNat_le, Nat.toUInt16_eq, UInt16.toNat_ofNat',
    Nat.mod_eq_of_lt (by omega)]
  exact hsum

/-- A response that is read has a status of at most three digits. -/
theorem status_le_of_parse_done {maxFields : Nat} {head : Head} {start : Start}
    (h : parse .response maxFields input = .done head rest) (hstart : head.start.start = .ok start) :
    start.status ≤ 999 := by
  obtain ⟨line, behind, hline, h⟩ := Scan.bind_eq_done h
  obtain ⟨fields, -, rfl⟩ := Scan.map_eq_done h
  obtain ⟨minor, _, -, hline⟩ := Scan.bind_eq_done hline
  obtain ⟨_, _, -, hline⟩ := Scan.bind_eq_done hline
  obtain ⟨code, _, hcode, hline⟩ := Scan.bind_eq_done hline
  obtain ⟨reason, -, rfl⟩ := Scan.map_eq_done hline
  cases hstart
  exact statusCode_le_of_done hcode

end Head

end HttpWire
