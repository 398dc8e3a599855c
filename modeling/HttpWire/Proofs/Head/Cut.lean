import HttpWire.Head.Grammar
import HttpWire.Proofs.Head.Ending
import HttpWire.Proofs.Span
/-!
# Heads in cut input

What a reader of the grammar makes of input that ends too soon. A reader that has found a part,
or something wrong, finds the same when more input comes. A reader that has to wait has input
that is still inside the line it reads.

Both facts hold of every reader below the lines and pass through `Scan.bind`, so each reader of a
line gets them from its parts (`LineReader`). For heads they say that the first empty line
decides: before it is in, nothing can be complete, and when it is in, nothing has to wait.
-/

namespace HttpWire

variable {α β : Type}

/-- The scan of a longer input, if the reader did not have to wait. -/
def Scan.extend (more : Bytes) : Scan α → Scan α
  | .done value rest => .done value (rest ++ more)
  | .incomplete => .incomplete
  | .failed error => .failed error

theorem Scan.extend_bind (more : Bytes) (scan : Scan α) {next : α → Bytes → Scan β}
    (hnext : ∀ value rest, scan = .done value rest →
      next value (rest ++ more) = (next value rest).extend more) :
    (scan.extend more).bind next = (scan.bind next).extend more := by
  cases scan with
  | done value rest => exact hnext value rest rfl
  | incomplete => rfl
  | failed error => rfl

namespace Head

/-! ## Readers inside a line -/

/-- What reading says about line feeds: what was read holds none, or only the one at its end if
the reader ends the line. Input in which the reader has to wait holds none at all. -/
def StaysInLine (endsLine : Bool) (input : Bytes) : Scan α → Prop
  | .done _ rest => ∃ text, Byte.lf ∉ text ∧
      input = text ++ (if endsLine then Byte.lf :: rest else rest)
  | .incomplete => Byte.lf ∉ input
  | .failed _ => True

/-- A reader that reads inside one line, perhaps to its end, and on which only input that it had
to wait for has any bearing. -/
structure LineReader (endsLine : Bool) (read : Bytes → Scan α) : Prop where
  stays : ∀ input, StaysInLine endsLine input (read input)
  settled : ∀ input more, read input ≠ .incomplete → read (input ++ more) = (read input).extend more

theorem StaysInLine.bind {endsLine : Bool} {input : Bytes} {scan : Scan α}
    {next : α → Bytes → Scan β} (hscan : StaysInLine false input scan)
    (hnext : ∀ value rest, StaysInLine endsLine rest (next value rest)) :
    StaysInLine endsLine input (scan.bind next) := by
  cases scan with
  | failed error => trivial
  | incomplete => exact hscan
  | done value rest =>
    obtain ⟨text, htext, rfl⟩ := hscan
    have hrest := hnext value rest
    simp only [Scan.bind_done, Bool.false_eq_true, if_false] at hrest ⊢
    cases hscan' : next value rest with
    | failed error => trivial
    | incomplete =>
      rw [hscan'] at hrest
      simp only [StaysInLine] at hrest ⊢
      simp [htext, hrest]
    | done value' rest' =>
      rw [hscan'] at hrest
      obtain ⟨text', htext', rfl⟩ := hrest
      exact ⟨text ++ text', by simp [htext, htext'], by simp⟩

/-- **Readers compose**: one inside the line, and one behind it. -/
theorem LineReader.bind {endsLine : Bool} {read : Bytes → Scan α} {next : α → Bytes → Scan β}
    (hread : LineReader false read) (hnext : ∀ value, LineReader endsLine (next value)) :
    LineReader endsLine fun input => (read input).bind next where
  stays input := (hread.stays input).bind fun value rest => (hnext value).stays rest
  settled input more h := by
    have hwait : read input ≠ .incomplete := fun hinc => h (by rw [hinc]; rfl)
    rw [hread.settled input more hwait]
    refine Scan.extend_bind more _ fun value rest hdone => (hnext value).settled rest more ?_
    intro hinc
    exact h (by rw [hdone, Scan.bind_done, hinc])

theorem LineReader.map {endsLine : Bool} {read : Bytes → Scan α} (f : α → β)
    (hread : LineReader endsLine read) : LineReader endsLine fun input => (read input).map f where
  stays input := by
    have h := hread.stays input
    cases hscan : read input with
    | done value rest => rw [hscan] at h; exact h
    | incomplete => rw [hscan] at h; exact h
    | failed error => trivial
  settled input more h := by
    have hwait : read input ≠ .incomplete := fun hinc => h (by rw [hinc]; rfl)
    rw [hread.settled input more hwait]
    cases read input <;> rfl

/-- Reading nothing. -/
theorem LineReader.done (value : α) : LineReader false (Scan.done value) where
  stays input := ⟨[], by simp, rfl⟩
  settled input more _ := rfl

theorem LineReader.failed (endsLine : Bool) (error : Error) :
    LineReader endsLine fun _ => (Scan.failed error : Scan α) where
  stays _ := trivial
  settled _ _ _ := rfl

/-! ## Pieces of lines -/

theorem lineReader_lineEnd (error : Error) : LineReader true (lineEnd error) where
  stays input := by
    cases input with
    | nil => simp [lineEnd, StaysInLine]
    | cons b rest =>
      simp only [lineEnd]
      split
      · next hb => exact ⟨[], by simp, by simp [hb]⟩
      · next hb =>
        split
        · next hcr =>
          subst hcr
          -- Behind the return a line feed may still come.
          cases rest with
          | nil => simp [StaysInLine, show Byte.lf ≠ Byte.cr by decide]
          | cons c rest =>
            dsimp only
            split
            · next hc => exact ⟨[Byte.cr], by decide, by simp [hc]⟩
            · trivial
        · trivial
  settled input more h := by
    cases input with
    | nil => exact absurd rfl h
    | cons b rest =>
      simp only [lineEnd, List.cons_append] at h ⊢
      split
      · rfl
      · next hlf =>
        split
        · next hcr =>
          cases rest with
          | nil => simp [if_neg hlf, if_pos hcr] at h
          | cons c rest =>
            simp only [List.cons_append]
            split <;> rfl
        · rfl

theorem LineReader.ite {endsLine : Bool} {read read' : Bytes → Scan α} (c : Prop) [Decidable c]
    (hread : LineReader endsLine read) (hread' : LineReader endsLine read') :
    LineReader endsLine fun input => if c then read input else read' input := by
  by_cases h : c
  · simpa only [if_pos h] using hread
  · simpa only [if_neg h] using hread'

theorem lineReader_byte {expected : UInt8} (h : expected ≠ Byte.lf) (error : Error) :
    LineReader false (byte expected error) where
  stays input := by
    cases input with
    | nil => simp [byte, StaysInLine]
    | cons b rest =>
      simp only [byte]
      split
      · next hb => exact ⟨[b], by simp [hb, h.symm], rfl⟩
      · trivial
  settled input more hwait := by
    cases input with
    | nil => exact absurd rfl hwait
    | cons b rest =>
      simp only [byte, List.cons_append]
      split <;> rfl

theorem lineReader_literal {expected : Bytes} (h : Byte.lf ∉ expected) (error : Error) :
    LineReader false (literal error expected) := by
  induction expected with
  | nil => exact LineReader.done ()
  | cons b expected ih =>
    have hb : b ≠ Byte.lf := by
      intro heq
      subst heq
      exact h (by simp)
    exact (lineReader_byte hb error).bind fun _ => ih fun hmem => h (by simp [hmem])

theorem lineReader_digit (error : Error) : LineReader false (digit error) where
  stays input := by
    cases input with
    | nil => simp [digit, StaysInLine]
    | cons b rest =>
      simp only [digit]
      split
      · next hb =>
        refine ⟨[b], ?_, rfl⟩
        rw [List.mem_singleton]
        intro heq
        subst heq
        exact absurd hb (by decide)
      · trivial
  settled input more hwait := by
    cases input with
    | nil => exact absurd rfl hwait
    | cons b rest =>
      simp only [digit, List.cons_append]
      split <;> rfl

/-- A run, in which the class says what may stand. -/
theorem run_of_run {inClass : UInt8 → Bool} {bytes : Bytes} {b : UInt8} {rest : Bytes}
    (hrun : ∀ a ∈ bytes, inClass a = true) (hb : inClass b = false) :
    run inClass (bytes ++ b :: rest) = .done bytes (b :: rest) := by
  have hstop : ∀ a ∈ (b :: rest).head?, inClass a = false := by
    intro a ha
    cases ha
    exact hb
  rw [run, dropWhile_run hrun hstop, takeWhile_run hrun hstop]

theorem run_incomplete {inClass : UInt8 → Bool} {bytes : Bytes}
    (hrun : ∀ a ∈ bytes, inClass a = true) : run inClass bytes = .incomplete := by
  rw [run, List.dropWhile_eq_nil_iff.mpr hrun]

theorem lineReader_run {inClass : UInt8 → Bool} (h : inClass Byte.lf = false) :
    LineReader false (run inClass) where
  stays input := by
    have hnot : ∀ bytes : Bytes, (∀ a ∈ bytes, inClass a = true) → Byte.lf ∉ bytes := by
      intro bytes hrun hmem
      rw [hrun _ hmem] at h
      cases h
    obtain ⟨bytes, rest, rfl, hrun, hstop⟩ := exists_run inClass input
    cases rest with
    | nil =>
      rw [List.append_nil, run_incomplete hrun]
      exact hnot bytes hrun
    | cons b rest =>
      rw [run_of_run hrun (hstop b rfl)]
      exact ⟨bytes, hnot bytes hrun, rfl⟩
  settled input more hwait := by
    obtain ⟨bytes, rest, rfl, hrun, hstop⟩ := exists_run inClass input
    cases rest with
    | nil =>
      rw [List.append_nil, run_incomplete hrun] at hwait
      exact absurd rfl hwait
    | cons b rest =>
      rw [run_of_run hrun (hstop b rfl), List.append_assoc, List.cons_append,
        run_of_run hrun (hstop b rfl)]
      rfl

theorem lineReader_word {inClass : UInt8 → Bool} {after : UInt8} (h : inClass Byte.lf = false)
    (hafter : after ≠ Byte.lf) (error : Error) : LineReader false (word inClass after error) :=
  (lineReader_run h).bind fun bytes =>
    .ite _ (.failed _ _) ((lineReader_byte hafter error).map fun _ => bytes)

theorem lineReader_textLine (error : Error) : LineReader true (textLine error) :=
  (lineReader_run (by decide)).bind fun text => (lineReader_lineEnd error).map fun _ => text

/-! ## Start lines -/

theorem lineReader_version : LineReader false version :=
  (lineReader_literal (by decide) _).bind fun _ => (lineReader_digit _).bind fun minor =>
    .ite _ (.done minor) (.failed _ _)

theorem lineReader_target : LineReader false target :=
  (lineReader_word (by decide) (by decide) _).bind fun bytes =>
    .ite _ (.done bytes) (.failed _ _)

theorem lineReader_requestLine : LineReader true requestLine :=
  (lineReader_word (by decide) (by decide) _).bind fun _ => lineReader_target.bind fun _ =>
    lineReader_version.bind fun _ => (lineReader_lineEnd _).map _

theorem lineReader_statusCode : LineReader false statusCode :=
  (lineReader_digit _).bind fun _ => (lineReader_digit _).bind fun _ => (lineReader_digit _).map _

theorem lineReader_reasonLine : LineReader true reasonLine where
  stays input := by
    cases input with
    | nil => simp [reasonLine, StaysInLine]
    | cons b rest =>
      simp only [reasonLine]
      split
      · next hb =>
        subst hb
        have hrest := (lineReader_textLine .invalidStatus).stays rest
        cases hscan : textLine .invalidStatus rest with
        | failed error => trivial
        | incomplete =>
          rw [hscan] at hrest
          simpa [StaysInLine, show Byte.lf ≠ Byte.space by decide] using hrest
        | done value rest' =>
          rw [hscan] at hrest
          obtain ⟨text, htext, rfl⟩ := hrest
          exact ⟨Byte.space :: text, by simp [htext, show Byte.lf ≠ Byte.space by decide], rfl⟩
      · exact ((lineReader_lineEnd .invalidStatus).map fun _ => ([] : Bytes)).stays (b :: rest)
  settled input more hwait := by
    cases input with
    | nil => exact absurd rfl hwait
    | cons b rest =>
      simp only [reasonLine, List.cons_append] at hwait ⊢
      split
      · next hb =>
        rw [if_pos hb] at hwait
        exact (lineReader_textLine .invalidStatus).settled rest more hwait
      · next hb =>
        rw [if_neg hb] at hwait
        exact ((lineReader_lineEnd .invalidStatus).map fun _ => ([] : Bytes)).settled
          (b :: rest) more hwait

theorem lineReader_statusLine : LineReader true statusLine :=
  lineReader_version.bind fun _ => (lineReader_byte (by decide) _).bind fun _ =>
    lineReader_statusCode.bind fun _ => lineReader_reasonLine.map _

theorem lineReader_startLine (kind : Kind) : LineReader true (startLine kind) := by
  cases kind with
  | request => exact lineReader_requestLine
  | response => exact lineReader_statusLine

/-! ## Field lines -/

theorem lineReader_fieldValue : LineReader true fieldValue :=
  (lineReader_run (by decide)).bind fun _ => (lineReader_textLine _).map _

theorem lineReader_fieldLine : LineReader true fieldLine :=
  (lineReader_word (by decide) (by decide) _).bind fun _ => lineReader_fieldValue.map _

/-- A line break is there, or the input ends in it, or something else is. -/
theorem lineEnd_cases (error : Error) (input : Bytes) :
    (∃ rest, lineEnd error input = .done () rest ∧
      (input = Byte.lf :: rest ∨ input = Byte.cr :: Byte.lf :: rest)) ∨
    (lineEnd error input = .incomplete ∧ Byte.lf ∉ input) ∨
    lineEnd error input = .failed error := by
  cases input with
  | nil => exact .inr (.inl ⟨rfl, by simp⟩)
  | cons b rest =>
    by_cases hlf : b = Byte.lf
    · exact .inl ⟨rest, by simp [lineEnd, hlf], .inl (by rw [hlf])⟩
    · by_cases hcr : b = Byte.cr
      · subst hcr
        cases rest with
        | nil => exact .inr (.inl ⟨by simp [lineEnd, if_neg hlf], by decide⟩)
        | cons c rest =>
          by_cases hc : c = Byte.lf
          · exact .inl ⟨rest, by simp [lineEnd, if_neg hlf, hc], .inr (by rw [hc])⟩
          · exact .inr (.inr (by simp [lineEnd, if_neg hlf, hc]))
      · exact .inr (.inr (by simp [lineEnd, hlf, hcr]))

theorem fieldLines_break {room : Nat} {input : Bytes}
    (h : input.head?.any Byte.isBreak = true) :
    fieldLines room input = (lineEnd .badLineEnd input).map fun _ => [] := by
  rw [fieldLines, if_pos h]

theorem fieldLines_field {room : Nat} {input : Bytes}
    (h : input.head?.any Byte.isBreak = false) :
    fieldLines room input =
      (fieldLine input).bind fun field rest =>
        match room with
        | 0 => .failed .tooManyFields
        | room + 1 => (fieldLines room rest).map (field :: ·) :=
  (fieldLines.eq_def room input).trans (if_neg (by simp [h]))

theorem fieldLines_settled (room : Nat) (input more : Bytes)
    (h : fieldLines room input ≠ .incomplete) :
    fieldLines room (input ++ more) = (fieldLines room input).extend more := by
  induction room using Nat.strongRecOn generalizing input with
  | ind room ih =>
    cases input with
    | nil => exact absurd (by rw [fieldLines_field rfl]; rfl) h
    | cons b rest =>
      -- The first byte decides what comes next, and `more` does not change it.
      have hhead : (b :: rest ++ more).head? = (b :: rest).head? := rfl
      cases hbreak : (b :: rest).head?.any Byte.isBreak with
      | true =>
        rw [fieldLines_break hbreak] at h ⊢
        rw [fieldLines_break (hhead ▸ hbreak)]
        exact ((lineReader_lineEnd .badLineEnd).map fun _ => ([] : List Field)).settled _ more h
      | false =>
        rw [fieldLines_field hbreak] at h ⊢
        have hwait : fieldLine (b :: rest) ≠ .incomplete := fun hinc => h (by rw [hinc]; rfl)
        rw [fieldLines_field (hhead ▸ hbreak), lineReader_fieldLine.settled _ more hwait]
        refine Scan.extend_bind more _ fun field after hdone => ?_
        rw [hdone, Scan.bind_done] at h
        cases room with
        | zero => rfl
        | succ room =>
          dsimp only at h ⊢
          have hrest : fieldLines room after ≠ .incomplete := fun hinc => h (by rw [hinc]; rfl)
          rw [ih room (by omega) after hrest]
          cases fieldLines room after <;> rfl

/-- What field lines say about the empty line behind a line feed: while they wait, it is not
there, and when they are complete, it is the last thing they read. -/
def EndsInEmptyLine (input : Bytes) : Scan α → Prop
  | .done _ rest => ∃ block, input = block ++ rest ∧ hasEnding (Byte.lf :: block) = true
  | .incomplete => hasEnding (Byte.lf :: input) = false
  | .failed _ => True

/-- A field line in front changes nothing about the empty line. -/
theorem EndsInEmptyLine.line_append {b : UInt8} {text rest : Bytes} {scan : Scan α} (f : α → β)
    (hb : Byte.isBreak b = false) (htext : Byte.lf ∉ b :: text) (h : EndsInEmptyLine rest scan) :
    EndsInEmptyLine (b :: text ++ Byte.lf :: rest) (scan.map f) := by
  cases scan with
  | failed error => trivial
  | incomplete => exact (hasEnding_line_append hb htext).trans h
  | done value rest' =>
    obtain ⟨block, rfl, hblock⟩ := h
    refine ⟨b :: text ++ Byte.lf :: block, by simp, ?_⟩
    rw [hasEnding_line_append hb htext, hblock]

theorem fieldLines_endsInEmptyLine (room : Nat) (input : Bytes) :
    EndsInEmptyLine input (fieldLines room input) := by
  induction room using Nat.strongRecOn generalizing input with
  | ind room ih =>
    rw [fieldLines]
    split
    · -- The empty line, with which the field lines are complete.
      obtain ⟨rest, hdone, hinput⟩ | ⟨hinc, hnot⟩ | hfailed := lineEnd_cases .badLineEnd input
      · rw [hdone]
        obtain rfl | rfl := hinput
        · exact ⟨[Byte.lf], rfl, by decide⟩
        · exact ⟨[Byte.cr, Byte.lf], rfl, by decide⟩
      · rw [hinc]
        exact hasEnding_lf_cons hnot
      · rw [hfailed]
        trivial
    · next hhead =>
      have hline := lineReader_fieldLine.stays input
      cases hscan : fieldLine input with
      | failed error => trivial
      | incomplete =>
        rw [hscan] at hline
        exact hasEnding_lf_cons hline
      | done field rest =>
        rw [hscan] at hline
        obtain ⟨text, htext, rfl⟩ := hline
        cases room with
        | zero => trivial
        | succ room =>
          cases text with
          | nil => exact absurd rfl hhead
          | cons b text =>
            have hb : Byte.isBreak b = false := by simpa using hhead
            exact (ih room (by omega) rest).line_append _ hb htext

/-! ## Heads -/

theorem parse_settled (kind : Kind) (maxFields : Nat) (input more : Bytes)
    (h : parse kind maxFields input ≠ .incomplete) :
    parse kind maxFields (input ++ more) = (parse kind maxFields input).extend more := by
  have hwait : startLine kind input ≠ .incomplete := fun hinc => h (by rw [parse, hinc]; rfl)
  rw [parse, parse, (lineReader_startLine kind).settled input more hwait]
  refine Scan.extend_bind more _ fun start rest hdone => ?_
  have hrest : fieldLines maxFields rest ≠ .incomplete := by
    intro hinc
    exact h (by rw [parse, hdone, Scan.bind_done, hinc]; rfl)
  rw [fieldLines_settled maxFields rest more hrest]
  cases fieldLines maxFields rest <;> rfl

/-- **While a head waits, its empty line is not in.** -/
theorem hasEnding_of_parse_incomplete {kind : Kind} {maxFields : Nat} {input : Bytes}
    (h : parse kind maxFields input = .incomplete) : hasEnding input = false := by
  have hline := (lineReader_startLine kind).stays input
  rw [parse] at h
  cases hscan : startLine kind input with
  | failed error => rw [hscan] at h; cases h
  | incomplete =>
    rw [hscan] at hline
    exact hasEnding_of_not_mem hline
  | done start rest =>
    rw [hscan] at h hline
    obtain ⟨text, htext, rfl⟩ := hline
    have hfields := fieldLines_endsInEmptyLine maxFields rest
    simp only [Scan.bind_done] at h
    cases hblock : fieldLines maxFields rest with
    | failed error => rw [hblock] at h; cases h
    | done fields rest' => rw [hblock] at h; cases h
    | incomplete =>
      rw [hblock] at hfields
      exact (hasEnding_text_append htext _).trans hfields

/-- **A complete head ends in its empty line.** -/
theorem hasEnding_of_parse_done {kind : Kind} {maxFields : Nat} {input rest : Bytes} {head : Head}
    (h : parse kind maxFields input = .done head rest) :
    ∃ block, input = block ++ rest ∧ hasEnding block = true := by
  have hline := (lineReader_startLine kind).stays input
  rw [parse] at h
  cases hscan : startLine kind input with
  | failed error => rw [hscan] at h; cases h
  | incomplete => rw [hscan] at h; cases h
  | done start after =>
    rw [hscan] at h hline
    obtain ⟨text, htext, rfl⟩ := hline
    have hfields := fieldLines_endsInEmptyLine maxFields after
    simp only [Scan.bind_done] at h
    cases hblock : fieldLines maxFields after with
    | failed error => rw [hblock] at h; cases h
    | incomplete => rw [hblock] at h; cases h
    | done fields rest' =>
      rw [hblock] at h hfields
      cases h
      obtain ⟨block, rfl, hend⟩ := hfields
      exact ⟨text ++ Byte.lf :: block, by simp, (hasEnding_text_append htext _).trans hend⟩

/-- A head reaches beyond any input in which no empty line was. -/
theorem length_of_parse_done {kind : Kind} {maxFields : Nat} {before taken rest : Bytes}
    {head : Head} (hbefore : hasEnding before = false)
    (h : parse kind maxFields (before ++ taken) = .done head rest) :
    rest.length < taken.length := by
  obtain ⟨block, heq, hend⟩ := hasEnding_of_parse_done h
  by_contra hle
  have hlen := congrArg List.length heq
  rw [List.length_append, List.length_append] at hlen
  have hblock : block <+: before :=
    List.prefix_of_prefix_length_le ⟨rest, heq.symm⟩ (List.prefix_append before taken) (by omega)
  rw [hasEnding_mono hend hblock.isInfix] at hbefore
  cases hbefore

/-- **The byte that completes the empty line completes the head**, or the head is malformed. -/
theorem parse_of_ending {kind : Kind} {maxFields : Nat} {before : Bytes} {b : UInt8}
    (hbefore : hasEnding before = false) (hending : hasEnding (before ++ [b]) = true) :
    (∃ head, parse kind maxFields (before ++ [b]) = .done head []) ∨
      ∃ error, parse kind maxFields (before ++ [b]) = .failed error := by
  cases hscan : parse kind maxFields (before ++ [b]) with
  | failed error => exact .inr ⟨error, rfl⟩
  | incomplete =>
    rw [hasEnding_of_parse_incomplete hscan] at hending
    cases hending
  | done head rest =>
    have hlen := length_of_parse_done hbefore hscan
    rw [List.length_singleton, Nat.lt_one_iff, List.length_eq_zero_iff] at hlen
    exact .inl ⟨head, by rw [hlen]⟩

end Head

end HttpWire
