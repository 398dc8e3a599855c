import HttpWire.Proofs.Head.Cut
/-!
# What reading a head comes to

A head that is complete is a block of its own at the front of the input: without what follows it
the grammar reads the same head and leaves nothing over, and its start line is of the kind that
was asked for. A head that is malformed is so for one of a few reasons. Reading never fails for
another reason because none of the readers that it is made of does, which passes through
`Scan.bind` like the facts on cut input.
-/

namespace HttpWire

variable {α β : Type}

/-! ## Kinds -/

/-- The kind of messages that start with a line like this. -/
def StartLine.kind : StartLine → Kind
  | .request .. => .request
  | .status .. => .response

theorem Scan.bind_eq_done {scan : Scan α} {next : α → Bytes → Scan β} {value : β} {rest : Bytes}
    (h : scan.bind next = .done value rest) :
    ∃ first after, scan = .done first after ∧ next first after = .done value rest := by
  cases scan with
  | done first after => exact ⟨first, after, rfl, h⟩
  | incomplete => cases h
  | failed error => cases h

theorem Scan.map_eq_done {scan : Scan α} {f : α → β} {value : β} {rest : Bytes}
    (h : scan.map f = .done value rest) : ∃ first, scan = .done first rest ∧ f first = value := by
  cases scan with
  | done first after =>
    cases h
    exact ⟨first, rfl, rfl⟩
  | incomplete => cases h
  | failed error => cases h

namespace Head

theorem kind_of_startLine_done {kind : Kind} {input rest : Bytes} {start : StartLine}
    (h : startLine kind input = .done start rest) : start.kind = kind := by
  cases kind with
  | request =>
    obtain ⟨method, afterMethod, -, h⟩ := Scan.bind_eq_done h
    obtain ⟨target, afterTarget, -, h⟩ := Scan.bind_eq_done h
    obtain ⟨minor, afterVersion, -, h⟩ := Scan.bind_eq_done h
    obtain ⟨-, -, rfl⟩ := Scan.map_eq_done h
    rfl
  | response =>
    obtain ⟨minor, afterVersion, -, h⟩ := Scan.bind_eq_done h
    obtain ⟨-, afterSpace, -, h⟩ := Scan.bind_eq_done h
    obtain ⟨code, afterCode, -, h⟩ := Scan.bind_eq_done h
    obtain ⟨reason, -, rfl⟩ := Scan.map_eq_done h
    rfl

/-- **A head is of the kind that was asked for.** -/
theorem kind_of_parse_done {kind : Kind} {maxFields : Nat} {input rest : Bytes} {head : Head}
    (h : parse kind maxFields input = .done head rest) : head.start.kind = kind := by
  obtain ⟨start, after, hstart, h⟩ := Scan.bind_eq_done h
  obtain ⟨fields, -, rfl⟩ := Scan.map_eq_done h
  exact kind_of_startLine_done hstart

/-- A line break is not the beginning of a start line. -/
theorem startLine_break (kind : Kind) {b : UInt8} (hb : Byte.isBreak b = true) (rest : Bytes) :
    ∃ error, startLine kind (b :: rest) = .failed error := by
  simp only [Byte.isBreak, Bool.or_eq_true, beq_iff_eq] at hb
  cases kind with
  | request =>
    have htoken : Byte.isToken b = false := by
      rcases hb with rfl | rfl
      · decide
      · decide
    refine ⟨.invalidToken, ?_⟩
    simp [startLine, requestLine, word, run, htoken]
  | response =>
    have hname : b ≠ 0x48 := by
      rcases hb with rfl | rfl
      · decide
      · decide
    refine ⟨.invalidVersion, ?_⟩
    simp [startLine, statusLine, version, literal, protocolName, byte, hname]

/-- A head starts with its start line, so with no line break. -/
theorem isBreak_of_parse_done {kind : Kind} {maxFields : Nat} {b : UInt8} {input rest : Bytes}
    {head : Head} (h : parse kind maxFields (b :: input) = .done head rest) :
    Byte.isBreak b = false := by
  by_cases hb : Byte.isBreak b = true
  · obtain ⟨error, hfailed⟩ := startLine_break kind hb input
    rw [parse, hfailed] at h
    cases h
  · simpa using hb

/-! ## Blocks -/

/-- **A complete head is a block**: read by itself it is the same head, with nothing left over. -/
theorem parse_block {kind : Kind} {maxFields : Nat} {input rest : Bytes} {head : Head}
    (h : parse kind maxFields input = .done head rest) :
    ∃ block, input = block ++ rest ∧ hasEnding block = true ∧
      parse kind maxFields block = .done head [] := by
  obtain ⟨block, rfl, hending⟩ := hasEnding_of_parse_done h
  have hwait : parse kind maxFields block ≠ .incomplete := by
    intro hinc
    rw [hasEnding_of_parse_incomplete hinc] at hending
    cases hending
  refine ⟨block, rfl, hending, ?_⟩
  rw [parse_settled kind maxFields block rest hwait] at h
  cases hblock : parse kind maxFields block with
  | incomplete => exact absurd hblock hwait
  | failed error =>
    rw [hblock] at h
    cases h
  | done head' rest' =>
    rw [hblock, Scan.extend] at h
    injection h with hhead hrest
    rw [hhead, List.append_left_eq_self.mp hrest]

/-- A block keeps being read as its head, whatever follows it. -/
theorem parse_append {kind : Kind} {maxFields : Nat} {block : Bytes} {head : Head}
    (h : parse kind maxFields block = .done head []) (rest : Bytes) :
    parse kind maxFields (block ++ rest) = .done head rest := by
  have hwait : parse kind maxFields block ≠ .incomplete := by
    rw [h]
    rintro ⟨⟩
  rw [parse_settled kind maxFields block rest hwait, h]
  rfl

/-- A block has its empty line at its end and none before. -/
theorem hasEnding_of_part {kind : Kind} {maxFields : Nat} {part more : Bytes} {head : Head}
    (h : parse kind maxFields (part ++ more) = .done head []) (hmore : more ≠ []) :
    hasEnding part = false := by
  cases hending : hasEnding part with
  | false => rfl
  | true =>
    have hwait : parse kind maxFields part ≠ .incomplete := by
      intro hinc
      rw [hasEnding_of_parse_incomplete hinc] at hending
      cases hending
    rw [parse_settled kind maxFields part more hwait] at h
    cases hpart : parse kind maxFields part with
    | incomplete => exact absurd hpart hwait
    | failed error =>
      rw [hpart] at h
      cases h
    | done head' rest =>
      rw [hpart, Scan.extend] at h
      injection h with _ hrest
      exact absurd (List.append_eq_nil_iff.mp hrest).2 hmore

end Head

/-! ## Faults -/

/-- Whether a scan fails, if it does, for one of these reasons. -/
def Scan.FailsIn (errors : List Error) (scan : Scan α) : Prop :=
  ∀ error, scan = .failed error → error ∈ errors

section
variable {errors : List Error}

theorem Scan.failsIn_done (value : α) (rest : Bytes) : (Scan.done value rest).FailsIn errors := by
  rintro error ⟨⟩

theorem Scan.failsIn_incomplete : (Scan.incomplete : Scan α).FailsIn errors := by
  rintro error ⟨⟩

theorem Scan.failsIn_failed {error : Error} (h : error ∈ errors) :
    (Scan.failed error : Scan α).FailsIn errors := by
  rintro _ ⟨⟩
  exact h

/-- **Reasons to fail compose.** -/
theorem Scan.FailsIn.bind {scan : Scan α} {next : α → Bytes → Scan β} (h : scan.FailsIn errors)
    (hnext : ∀ value rest, (next value rest).FailsIn errors) : (scan.bind next).FailsIn errors := by
  cases scan with
  | done value rest => exact hnext value rest
  | incomplete => exact failsIn_incomplete
  | failed error => exact failsIn_failed (h error rfl)

theorem Scan.FailsIn.map {scan : Scan α} (f : α → β) (h : scan.FailsIn errors) :
    (scan.map f).FailsIn errors :=
  h.bind fun value rest => failsIn_done (f value) rest

namespace Head

/-- The reasons for which a head can be malformed. -/
def faults : List Error :=
  [.invalidToken, .invalidFieldName, .invalidFieldValue, .invalidVersion, .invalidStatus,
    .badLineEnd, .tooManyFields]

variable {error : Error} (h : error ∈ errors)
include h

theorem failsIn_lineEnd (input : Bytes) : (lineEnd error input).FailsIn errors := by
  obtain ⟨rest, hdone, -⟩ | ⟨hinc, -⟩ | hfailed := lineEnd_cases error input
  · rw [hdone]
    exact Scan.failsIn_done () rest
  · rw [hinc]
    exact Scan.failsIn_incomplete
  · rw [hfailed]
    exact Scan.failsIn_failed h

theorem failsIn_byte (expected : UInt8) (input : Bytes) :
    (byte expected error input).FailsIn errors := by
  cases input with
  | nil => exact Scan.failsIn_incomplete
  | cons b rest =>
    rw [byte]
    split
    · exact Scan.failsIn_done () rest
    · exact Scan.failsIn_failed h

theorem failsIn_literal (expected input : Bytes) :
    (literal error expected input).FailsIn errors := by
  induction expected generalizing input with
  | nil => exact Scan.failsIn_done () input
  | cons b expected ih => exact (failsIn_byte h b input).bind fun _ rest => ih rest

theorem failsIn_digit (input : Bytes) : (digit error input).FailsIn errors := by
  cases input with
  | nil => exact Scan.failsIn_incomplete
  | cons b rest =>
    rw [digit]
    split
    · exact Scan.failsIn_done _ rest
    · exact Scan.failsIn_failed h

omit h in
theorem failsIn_run (inClass : UInt8 → Bool) (input : Bytes) :
    (run inClass input).FailsIn errors := by
  rw [run]
  split
  · exact Scan.failsIn_incomplete
  · exact Scan.failsIn_done _ _

theorem failsIn_word (inClass : UInt8 → Bool) (after : UInt8) (input : Bytes) :
    (word inClass after error input).FailsIn errors := by
  refine (failsIn_run inClass input).bind fun bytes rest => ?_
  split
  · exact Scan.failsIn_failed h
  · exact (failsIn_byte h after rest).map _

theorem failsIn_textLine (input : Bytes) : (textLine error input).FailsIn errors :=
  (failsIn_run _ input).bind fun _ rest => (failsIn_lineEnd h rest).map _

omit h

theorem failsIn_version (input : Bytes) : (version input).FailsIn faults := by
  have hfault : Error.invalidVersion ∈ faults := by decide
  refine (failsIn_literal hfault protocolName input).bind fun _ rest => ?_
  refine (failsIn_digit hfault rest).bind fun minor rest => ?_
  split
  · exact Scan.failsIn_done minor rest
  · exact Scan.failsIn_failed hfault

theorem failsIn_target (input : Bytes) : (target input).FailsIn faults := by
  have hfault : Error.invalidToken ∈ faults := by decide
  refine (failsIn_word hfault _ _ input).bind fun bytes rest => ?_
  split
  · exact Scan.failsIn_done bytes rest
  · exact Scan.failsIn_failed hfault

theorem failsIn_requestLine (input : Bytes) : (requestLine input).FailsIn faults :=
  (failsIn_word (by decide) _ _ input).bind fun _ rest =>
    (failsIn_target rest).bind fun _ rest =>
      (failsIn_version rest).bind fun _ rest => (failsIn_lineEnd (by decide) rest).map _

theorem failsIn_statusCode (input : Bytes) : (statusCode input).FailsIn faults := by
  have hfault : Error.invalidStatus ∈ faults := by decide
  exact (failsIn_digit hfault input).bind fun _ rest =>
    (failsIn_digit hfault rest).bind fun _ rest => (failsIn_digit hfault rest).map _

theorem failsIn_reasonLine (input : Bytes) : (reasonLine input).FailsIn faults := by
  have hfault : Error.invalidStatus ∈ faults := by decide
  cases input with
  | nil => exact Scan.failsIn_incomplete
  | cons b rest =>
    rw [reasonLine]
    split
    · exact failsIn_textLine hfault rest
    · exact (failsIn_lineEnd hfault _).map _

theorem failsIn_statusLine (input : Bytes) : (statusLine input).FailsIn faults :=
  (failsIn_version input).bind fun _ rest =>
    (failsIn_byte (by decide) _ rest).bind fun _ rest =>
      (failsIn_statusCode rest).bind fun _ rest => (failsIn_reasonLine rest).map _

theorem failsIn_fieldLine (input : Bytes) : (fieldLine input).FailsIn faults :=
  (failsIn_word (by decide) _ _ input).bind fun _ rest =>
    ((failsIn_run _ rest).bind fun _ rest => (failsIn_textLine (by decide) rest).map _).map _

theorem failsIn_fieldLines (room : Nat) (input : Bytes) :
    (fieldLines room input).FailsIn faults := by
  induction room using Nat.strongRecOn generalizing input with
  | ind room ih =>
    rw [fieldLines]
    split
    · exact (failsIn_lineEnd (by decide) input).map _
    · refine (failsIn_fieldLine input).bind fun field rest => ?_
      cases room with
      | zero => exact Scan.failsIn_failed (by decide)
      | succ room => exact (ih room (by omega) rest).map _

/-- **A malformed head has one of a few faults.** -/
theorem failsIn_parse (kind : Kind) (maxFields : Nat) (input : Bytes) :
    (parse kind maxFields input).FailsIn faults := by
  have hstart : (startLine kind input).FailsIn faults := by
    cases kind with
    | request => exact failsIn_requestLine input
    | response => exact failsIn_statusLine input
  exact hstart.bind fun _ rest => (failsIn_fieldLines maxFields rest).map _

end Head

end

end HttpWire
