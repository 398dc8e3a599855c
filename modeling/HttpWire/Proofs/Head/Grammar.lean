import HttpWire.Proofs.Grammar
import HttpWire.Proofs.Head.Plain
/-!
# The language of heads

The lines of a head, written down without the readers: a start line, field lines and an empty line.
A reader of a line reads exactly such a line off the front of its input, whatever follows it.

How many field lines there are makes no difference to the lines. A head that is made of them is
accepted if they are no more than there is room for, and otherwise they are too many and nothing
else is wrong.
-/

namespace HttpWire.Head

/-! ## The grammar -/

/-- The digit of a value. -/
def digitByte (value : Nat) : UInt8 := (0x30 + value).toUInt8

/-- Some bytes of one class. -/
structure Word (inClass : UInt8 → Bool) (bytes : Bytes) : Prop where
  ne_nil : bytes ≠ []
  all : ∀ b ∈ bytes, inClass b = true

/-- The line of a request: a method, a target that is text and a version. -/
inductive RequestLine : StartLine → Bytes → Prop where
  | intro {method target lineBreak : Bytes} {minor : Nat} (hmethod : Word Byte.isToken method)
      (htarget : Word Byte.isTarget target) (htext : (Utf8.decode? target).isSome = true)
      (hminor : minor ≤ 1) (hbreak : LineBreak lineBreak) :
      RequestLine (.request method target minor)
        (method ++ Byte.space :: (target ++ Byte.space ::
          (protocolName ++ digitByte minor :: lineBreak)))

/-- What may follow a status code: a space and a reason phrase, or nothing, which is a phrase that
is empty. -/
def Phrase (reason phrase : Bytes) : Prop :=
  (∀ b ∈ reason, Byte.isText b = true) ∧
    (phrase = Byte.space :: reason ∨ phrase = [] ∧ reason = [])

/-- The line of a response: a version, a code of three digits and a reason phrase. -/
inductive StatusLine : StartLine → Bytes → Prop where
  | intro {reason phrase lineBreak : Bytes} {minor hundreds tens ones : Nat} (hminor : minor ≤ 1)
      (hhundreds : hundreds ≤ 9) (htens : tens ≤ 9) (hones : ones ≤ 9)
      (hphrase : Phrase reason phrase) (hbreak : LineBreak lineBreak) :
      StatusLine (.status minor (100 * hundreds + 10 * tens + ones).toUInt16 reason)
        (protocolName ++ digitByte minor :: Byte.space :: digitByte hundreds :: digitByte tens ::
          digitByte ones :: (phrase ++ lineBreak))

/-- The start line of a kind of message. -/
def IsStartLine : Kind → StartLine → Bytes → Prop
  | .request => RequestLine
  | .response => StatusLine

/-- The line of a field: the name, a colon and the value with blanks around it. -/
inductive FieldLine (field : Field) : Bytes → Prop where
  | intro {before after lineBreak : Bytes} (hplain : field.IsPlain)
      (hbefore : ∀ b ∈ before, Byte.isBlank b = true) (hafter : ∀ b ∈ after, Byte.isBlank b = true)
      (hbreak : LineBreak lineBreak) :
      FieldLine field (field.name ++ Byte.colon :: (before ++ (field.value ++ (after ++ lineBreak))))

/-- Field lines up to the empty line, and their fields. -/
inductive FieldLines : List Field → Bytes → Prop where
  | empty {line : Bytes} (hline : LineBreak line) : FieldLines [] line
  | field {line block : Bytes} {field : Field} {fields : List Field} (hline : FieldLine field line)
      (hblock : FieldLines fields block) : FieldLines (field :: fields) (line ++ block)

/-- The lines of a head. -/
inductive Lines (kind : Kind) (head : Head) : Bytes → Prop where
  | intro {line block : Bytes} (hline : IsStartLine kind head.start line)
      (hblock : FieldLines head.fields block) : Lines kind head (line ++ block)

/-! ## Pieces of lines -/

section
variable {error : Error} {input rest bytes : Bytes}

theorem byte_eq_done_iff {expected : UInt8} :
    byte expected error input = .done () rest ↔ input = expected :: rest := by
  cases input with
  | nil => simp [byte]
  | cons b input =>
    rw [byte]
    split
    · next hb => simp [hb]
    · next hb => simp [hb]

theorem literal_eq_done_iff {expected : Bytes} :
    literal error expected input = .done () rest ↔ input = expected ++ rest := by
  constructor
  · intro h
    induction expected generalizing input with
    | nil =>
      cases h
      rfl
    | cons b expected ih =>
      obtain ⟨_, after, hb, h⟩ := Scan.bind_eq_done h
      rw [byte_eq_done_iff.mp hb, ih h, List.cons_append]
  · rintro rfl
    exact literal_append error expected rest

theorem word_eq_done_iff {inClass : UInt8 → Bool} {after : UInt8} (hafter : inClass after = false) :
    word inClass after error input = .done bytes rest ↔
      Word inClass bytes ∧ input = bytes ++ after :: rest := by
  constructor
  · intro h
    obtain ⟨hne, hall⟩ := word_eq_done h
    obtain ⟨text, behind, hrun, hword⟩ := Scan.bind_eq_done h
    obtain ⟨rfl, -, -⟩ := run_eq_done hrun
    split at hword
    · cases hword
    · obtain ⟨_, hbyte, rfl⟩ := Scan.map_eq_done hword
      exact ⟨⟨hne, hall⟩, by rw [byte_eq_done_iff.mp hbyte]⟩
  · rintro ⟨⟨hne, hall⟩, rfl⟩
    exact word_append hne hall hafter rest

theorem lineEnd_eq_done_iff :
    lineEnd error input = .done () rest ↔ ∃ lineBreak, LineBreak lineBreak ∧
      input = lineBreak ++ rest := by
  constructor
  · intro h
    obtain ⟨rest', hdone, hinput⟩ | ⟨hinc, -⟩ | hfailed := lineEnd_cases error input
    · rw [hdone] at h
      cases h
      obtain rfl | rfl := hinput
      · exact ⟨[Byte.lf], .inl rfl, rfl⟩
      · exact ⟨[Byte.cr, Byte.lf], .inr rfl, rfl⟩
    · rw [hinc] at h
      cases h
    · rw [hfailed] at h
      cases h
  · rintro ⟨lineBreak, rfl | rfl, rfl⟩
    · rfl
    · rfl

theorem isText_of_isBreak {b : UInt8} (h : Byte.isBreak b = true) : Byte.isText b = false := by
  simp only [Byte.isBreak, Bool.or_eq_true, beq_iff_eq] at h
  rcases h with rfl | rfl <;> decide

theorem textLine_eq_done_iff :
    textLine error input = .done bytes rest ↔
      (∀ b ∈ bytes, Byte.isText b = true) ∧
        ∃ lineBreak, LineBreak lineBreak ∧ input = bytes ++ (lineBreak ++ rest) := by
  constructor
  · intro h
    obtain ⟨text, behind, hrun, h⟩ := Scan.bind_eq_done h
    obtain ⟨_, hend, rfl⟩ := Scan.map_eq_done h
    obtain ⟨rfl, hall, -⟩ := run_eq_done hrun
    obtain ⟨lineBreak, hbreak, rfl⟩ := lineEnd_eq_done_iff.mp hend
    exact ⟨hall, lineBreak, hbreak, rfl⟩
  · rintro ⟨hall, lineBreak, hbreak, rfl⟩
    have hend : lineEnd error (lineBreak ++ rest) = .done () rest :=
      lineEnd_eq_done_iff.mpr ⟨lineBreak, hbreak, rfl⟩
    obtain ⟨b, more, rfl, hb⟩ := hbreak.head?
    rw [textLine, List.cons_append, run_append hall (isText_of_isBreak hb), Scan.bind_done,
      ← List.cons_append, hend, Scan.map_done]

theorem digitByte_of_isDigit {b : UInt8} (h : Byte.isDigit b = true) :
    digitByte (b.toNat - 0x30) = b := by
  rw [Byte.isDigit, Bool.and_eq_true, decide_eq_true_eq, UInt8.le_iff_toNat_le] at h
  have hle : 0x30 ≤ b.toNat := h.1
  rw [digitByte, Nat.add_sub_cancel' hle]
  exact UInt8.ofNat_toNat

theorem digit_eq_done_iff {value : Nat} :
    digit error input = .done value rest ↔ value ≤ 9 ∧ input = digitByte value :: rest := by
  constructor
  · intro h
    refine ⟨digit_le_of_done h, ?_⟩
    cases input with
    | nil => cases h
    | cons b input =>
      rw [digit] at h
      split at h
      · next hb =>
        cases h
        rw [digitByte_of_isDigit hb]
      · cases h
  · rintro ⟨hvalue, rfl⟩
    have hdigit : ∀ value ≤ 9, Byte.isDigit (digitByte value) = true ∧
        (digitByte value).toNat - 0x30 = value := by
      decide
    obtain ⟨hb, hvalue⟩ := hdigit value hvalue
    rw [digit, if_pos hb, hvalue]

/-! ## Start lines -/

theorem version_eq_done_iff {minor : Nat} :
    version input = .done minor rest ↔
      minor ≤ 1 ∧ input = protocolName ++ digitByte minor :: rest := by
  constructor
  · intro h
    obtain ⟨_, afterName, hname, h⟩ := Scan.bind_eq_done h
    obtain ⟨value, afterDigit, hdigit, h⟩ := Scan.bind_eq_done h
    split at h
    · next hminor =>
      cases h
      refine ⟨hminor, ?_⟩
      rw [literal_eq_done_iff.mp hname, (digit_eq_done_iff.mp hdigit).2]
    · cases h
  · rintro ⟨hminor, rfl⟩
    have hdigit : digit .invalidVersion (digitByte minor :: rest) = .done minor rest :=
      digit_eq_done_iff.mpr ⟨by omega, rfl⟩
    rw [version, literal_append, Scan.bind_done, hdigit, Scan.bind_done, if_pos hminor]

theorem target_eq_done_iff :
    target input = .done bytes rest ↔
      Word Byte.isTarget bytes ∧ (Utf8.decode? bytes).isSome = true ∧
        input = bytes ++ Byte.space :: rest := by
  have hspace : Byte.isTarget Byte.space = false := by decide
  constructor
  · intro h
    obtain ⟨text, behind, hword, htext⟩ := Scan.bind_eq_done h
    obtain ⟨htarget, rfl⟩ := (word_eq_done_iff hspace).mp hword
    split at htext
    · next hdecode =>
      cases htext
      exact ⟨htarget, hdecode, rfl⟩
    · cases htext
  · rintro ⟨htarget, htext, rfl⟩
    exact target_append htarget.ne_nil htarget.all htext rest

/-- **Request lines are read as they are written.** -/
theorem requestLine_eq_done_iff {start : StartLine} :
    requestLine input = .done start rest ↔
      ∃ line, RequestLine start line ∧ input = line ++ rest := by
  have hspace : Byte.isToken Byte.space = false := by decide
  constructor
  · intro h
    obtain ⟨method, _, hmethod, h⟩ := Scan.bind_eq_done h
    obtain ⟨target, _, htarget, h⟩ := Scan.bind_eq_done h
    obtain ⟨minor, _, hversion, h⟩ := Scan.bind_eq_done h
    obtain ⟨_, hend, rfl⟩ := Scan.map_eq_done h
    obtain ⟨htoken, rfl⟩ := (word_eq_done_iff hspace).mp hmethod
    obtain ⟨hword, htext, rfl⟩ := target_eq_done_iff.mp htarget
    obtain ⟨hminor, rfl⟩ := version_eq_done_iff.mp hversion
    obtain ⟨lineBreak, hbreak, rfl⟩ := lineEnd_eq_done_iff.mp hend
    exact ⟨_, .intro htoken hword htext hminor hbreak, by simp⟩
  · rintro ⟨line, hline, rfl⟩
    cases hline with
    | @intro method target lineBreak minor hmethod htarget htext hminor hbreak =>
      have hversion : version (protocolName ++ digitByte minor :: (lineBreak ++ rest)) =
          .done minor (lineBreak ++ rest) := version_eq_done_iff.mpr ⟨hminor, rfl⟩
      have hend : lineEnd .badLineEnd (lineBreak ++ rest) = .done () rest :=
        lineEnd_eq_done_iff.mpr ⟨lineBreak, hbreak, rfl⟩
      simp only [List.append_assoc, List.cons_append]
      rw [requestLine, word_append hmethod.ne_nil hmethod.all hspace, Scan.bind_done,
        target_append htarget.ne_nil htarget.all htext, Scan.bind_done, hversion, Scan.bind_done,
        hend, Scan.map_done]

theorem statusCode_eq_done_iff {code : UInt16} :
    statusCode input = .done code rest ↔
      ∃ hundreds tens ones, (hundreds ≤ 9 ∧ tens ≤ 9 ∧ ones ≤ 9) ∧
        code = (100 * hundreds + 10 * tens + ones).toUInt16 ∧
        input = digitByte hundreds :: digitByte tens :: digitByte ones :: rest := by
  constructor
  · intro h
    obtain ⟨hundreds, _, hfirst, h⟩ := Scan.bind_eq_done h
    obtain ⟨tens, _, hsecond, h⟩ := Scan.bind_eq_done h
    obtain ⟨ones, hthird, rfl⟩ := Scan.map_eq_done h
    obtain ⟨hhundreds, rfl⟩ := digit_eq_done_iff.mp hfirst
    obtain ⟨htens, rfl⟩ := digit_eq_done_iff.mp hsecond
    obtain ⟨hones, rfl⟩ := digit_eq_done_iff.mp hthird
    exact ⟨hundreds, tens, ones, ⟨hhundreds, htens, hones⟩, rfl, rfl⟩
  · rintro ⟨hundreds, tens, ones, ⟨hhundreds, htens, hones⟩, rfl, rfl⟩
    rw [statusCode, digit_eq_done_iff.mpr ⟨hhundreds, rfl⟩, Scan.bind_done,
      digit_eq_done_iff.mpr ⟨htens, rfl⟩, Scan.bind_done, digit_eq_done_iff.mpr ⟨hones, rfl⟩,
      Scan.map_done]

theorem reasonLine_eq_done_iff {reason : Bytes} :
    reasonLine input = .done reason rest ↔
      ∃ phrase lineBreak, Phrase reason phrase ∧ LineBreak lineBreak ∧
        input = phrase ++ (lineBreak ++ rest) := by
  constructor
  · intro h
    cases input with
    | nil => cases h
    | cons b input =>
      rw [reasonLine] at h
      split at h
      · next hb =>
        obtain ⟨hall, lineBreak, hbreak, rfl⟩ := textLine_eq_done_iff.mp h
        exact ⟨_, lineBreak, ⟨hall, .inl rfl⟩, hbreak, by rw [hb]; rfl⟩
      · obtain ⟨_, hend, rfl⟩ := Scan.map_eq_done h
        obtain ⟨lineBreak, hbreak, hinput⟩ := lineEnd_eq_done_iff.mp hend
        exact ⟨[], lineBreak, ⟨by simp, .inr ⟨rfl, rfl⟩⟩, hbreak, hinput⟩
  · rintro ⟨phrase, lineBreak, ⟨hall, rfl | ⟨rfl, rfl⟩⟩, hbreak, rfl⟩
    · rw [List.cons_append, reasonLine, if_pos rfl]
      exact textLine_eq_done_iff.mpr ⟨hall, lineBreak, hbreak, rfl⟩
    · have hend : lineEnd .invalidStatus (lineBreak ++ rest) = .done () rest :=
        lineEnd_eq_done_iff.mpr ⟨lineBreak, hbreak, rfl⟩
      obtain ⟨b, more, rfl, hb⟩ := hbreak.head?
      have hspace : b ≠ Byte.space := by
        rintro rfl
        exact absurd hb (by decide)
      rw [List.nil_append, List.cons_append, reasonLine, if_neg hspace, ← List.cons_append, hend,
        Scan.map_done]

/-- **Status lines are read as they are written.** -/
theorem statusLine_eq_done_iff {start : StartLine} :
    statusLine input = .done start rest ↔
      ∃ line, StatusLine start line ∧ input = line ++ rest := by
  constructor
  · intro h
    obtain ⟨minor, _, hversion, h⟩ := Scan.bind_eq_done h
    obtain ⟨_, _, hspace, h⟩ := Scan.bind_eq_done h
    obtain ⟨code, _, hcode, h⟩ := Scan.bind_eq_done h
    obtain ⟨reason, hreason, rfl⟩ := Scan.map_eq_done h
    obtain ⟨hminor, rfl⟩ := version_eq_done_iff.mp hversion
    obtain rfl := byte_eq_done_iff.mp hspace
    obtain ⟨hundreds, tens, ones, ⟨hhundreds, htens, hones⟩, rfl, rfl⟩ :=
      statusCode_eq_done_iff.mp hcode
    obtain ⟨phrase, lineBreak, hphrase, hbreak, rfl⟩ := reasonLine_eq_done_iff.mp hreason
    exact ⟨_, .intro hminor hhundreds htens hones hphrase hbreak, by simp⟩
  · rintro ⟨line, hline, rfl⟩
    cases hline with
    | @intro reason phrase lineBreak minor hundreds tens ones hminor hhundreds htens hones hphrase
        hbreak =>
      have hreason : reasonLine (phrase ++ (lineBreak ++ rest)) = .done reason rest :=
        reasonLine_eq_done_iff.mpr ⟨phrase, lineBreak, hphrase, hbreak, rfl⟩
      have hcode := statusCode_eq_done_iff.mpr
        ⟨hundreds, tens, ones, ⟨hhundreds, htens, hones⟩, rfl, Eq.refl (digitByte hundreds ::
          digitByte tens :: digitByte ones :: (phrase ++ (lineBreak ++ rest)))⟩
      simp only [List.append_assoc, List.cons_append]
      rw [statusLine, version_eq_done_iff.mpr ⟨hminor, rfl⟩, Scan.bind_done,
        byte_eq_done_iff.mpr rfl, Scan.bind_done, hcode, Scan.bind_done, hreason, Scan.map_done]

/-- **Start lines are read as they are written.** -/
theorem startLine_eq_done_iff {kind : Kind} {start : StartLine} :
    startLine kind input = .done start rest ↔
      ∃ line, IsStartLine kind start line ∧ input = line ++ rest := by
  cases kind with
  | request => exact requestLine_eq_done_iff
  | response => exact statusLine_eq_done_iff

/-! ## Field lines -/

theorem isText_of_isBlank {b : UInt8} (h : Byte.isBlank b = true) : Byte.isText b = true := by
  rw [Byte.isText, h, Bool.or_true]

theorem isBlank_of_isBreak {b : UInt8} (h : Byte.isBreak b = true) : Byte.isBlank b = false := by
  simp only [Byte.isBreak, Bool.or_eq_true, beq_iff_eq] at h
  rcases h with rfl | rfl <;> decide

/-- A value is read without the blanks around it. -/
theorem fieldValue_between {before value after lineBreak : Bytes}
    (hbefore : ∀ b ∈ before, Byte.isBlank b = true) (hvalue : ∀ b ∈ value, Byte.isText b = true)
    (hhead : ∀ b ∈ value.head?, Byte.isBlank b = false)
    (hlast : ∀ b ∈ value.getLast?, Byte.isBlank b = false)
    (hafter : ∀ b ∈ after, Byte.isBlank b = true) (hbreak : LineBreak lineBreak) (rest : Bytes) :
    fieldValue (before ++ (value ++ (after ++ (lineBreak ++ rest)))) = .done value rest := by
  cases value with
  | nil =>
    -- All blanks are read as those in front.
    have htext : textLine .invalidFieldValue (lineBreak ++ rest) = .done [] rest :=
      textLine_eq_done_iff.mpr ⟨by simp, lineBreak, hbreak, rfl⟩
    have hblanks : ∀ b ∈ before ++ after, Byte.isBlank b = true := by
      intro b hb
      rcases List.mem_append.mp hb with hfirst | hlater
      · exact hbefore b hfirst
      · exact hafter b hlater
    obtain ⟨b, more, rfl, hb⟩ := hbreak.head?
    rw [fieldValue, List.nil_append, ← List.append_assoc, List.cons_append,
      run_append hblanks (isBlank_of_isBreak hb), Scan.bind_done, ← List.cons_append, htext,
      Scan.map_done]
    rfl
  | cons b value =>
    have hall : ∀ c ∈ b :: value ++ after, Byte.isText c = true := by
      intro c hc
      rcases List.mem_append.mp hc with hfirst | hlater
      · exact hvalue c hfirst
      · exact isText_of_isBlank (hafter c hlater)
    have htext : textLine .invalidFieldValue (b :: (value ++ (after ++ (lineBreak ++ rest)))) =
        .done (b :: value ++ after) rest :=
      textLine_eq_done_iff.mpr ⟨hall, lineBreak, hbreak, by simp⟩
    rw [fieldValue, List.cons_append, run_append hbefore (hhead b rfl), Scan.bind_done, htext,
      Scan.map_done, Bytes.trimEnd_append hlast hafter]

/-- **Field lines are read as they are written.** -/
theorem fieldLine_eq_done_iff {field : Field} :
    fieldLine input = .done field rest ↔ ∃ line, FieldLine field line ∧ input = line ++ rest := by
  have hcolon : Byte.isToken Byte.colon = false := by decide
  constructor
  · intro h
    have hplain := isPlain_of_fieldLine h
    obtain ⟨name, _, hname, h⟩ := Scan.bind_eq_done h
    obtain ⟨value, hvalue, rfl⟩ := Scan.map_eq_done h
    obtain ⟨-, rfl⟩ := (word_eq_done_iff hcolon).mp hname
    obtain ⟨before, _, hrun, h⟩ := Scan.bind_eq_done hvalue
    obtain ⟨text, htext, rfl⟩ := Scan.map_eq_done h
    obtain ⟨rfl, hbefore, -⟩ := run_eq_done hrun
    obtain ⟨-, lineBreak, hbreak, rfl⟩ := textLine_eq_done_iff.mp htext
    obtain ⟨after, htrim, hafter⟩ := Bytes.exists_trimEnd text
    refine ⟨_, .intro hplain hbefore hafter hbreak, ?_⟩
    have hsplit : text ++ (lineBreak ++ rest) =
        text.trimEnd ++ (after ++ (lineBreak ++ rest)) := by
      rw [← List.append_assoc text.trimEnd, ← htrim]
    rw [hsplit]
    simp
  · rintro ⟨line, hline, rfl⟩
    cases hline with
    | @intro before after lineBreak hplain hbefore hafter hbreak =>
      simp only [List.append_assoc, List.cons_append]
      rw [fieldLine, word_append hplain.name_ne_nil hplain.name hcolon, Scan.bind_done,
        fieldValue_between hbefore hplain.value hplain.value_head hplain.value_last hafter hbreak,
        Scan.map_done]

theorem FieldLine.head? {field : Field} {line : Bytes} (h : FieldLine field line) (more : Bytes) :
    (line ++ more).head?.any Byte.isBreak = false := by
  cases h with
  | intro hplain =>
    obtain ⟨b, name, hname⟩ := List.exists_cons_of_ne_nil hplain.name_ne_nil
    have hb : Byte.isBreak b = false := isBreak_of_isToken (hplain.name b (by simp [hname]))
    simp [hname, hb]

end

/-! ## Blocks of field lines -/

section
variable {room : Nat} {block : Bytes} {fields : List Field}

theorem fieldLines_of_lineBreak (room : Nat) {line : Bytes} (h : LineBreak line) (rest : Bytes) :
    fieldLines room (line ++ rest) = .done [] rest := by
  obtain rfl | rfl := h
  · exact fieldLines_break rfl
  · exact fieldLines_break rfl

/-- Field lines are read if there is room for them. -/
theorem FieldLines.read (h : FieldLines fields block) (hroom : fields.length ≤ room)
    (rest : Bytes) : fieldLines room (block ++ rest) = .done fields rest := by
  induction h generalizing room with
  | empty hline => exact fieldLines_of_lineBreak room hline rest
  | @field line block field fields hline hblock ih =>
    obtain ⟨room, rfl⟩ := Nat.exists_eq_succ_of_ne_zero (Nat.ne_zero_of_lt hroom)
    have hread : fieldLine (line ++ (block ++ rest)) = .done field (block ++ rest) :=
      fieldLine_eq_done_iff.mpr ⟨line, hline, rfl⟩
    rw [List.append_assoc, fieldLines_field (hline.head? _), hread, Scan.bind_done]
    dsimp only
    rw [ih (Nat.le_of_succ_le_succ hroom), Scan.map_done]

/-- The line that there is no room for is found as soon as it has been read. -/
theorem FieldLines.tooManyFields (h : FieldLines fields block) (hroom : room < fields.length)
    (rest : Bytes) : fieldLines room (block ++ rest) = .failed .tooManyFields := by
  induction h generalizing room with
  | empty => cases hroom
  | @field line block field fields hline hblock ih =>
    have hread : fieldLine (line ++ (block ++ rest)) = .done field (block ++ rest) :=
      fieldLine_eq_done_iff.mpr ⟨line, hline, rfl⟩
    rw [List.append_assoc, fieldLines_field (hline.head? _), hread, Scan.bind_done]
    cases room with
    | zero => rfl
    | succ room =>
      dsimp only
      rw [ih (Nat.lt_of_succ_lt_succ hroom), Scan.map_failed]

/-- What is read as field lines is a block of them. -/
theorem exists_fieldLines {input rest : Bytes} (h : fieldLines room input = .done fields rest) :
    ∃ block, FieldLines fields block ∧ input = block ++ rest ∧ fields.length ≤ room := by
  induction room using Nat.strongRecOn generalizing input fields with
  | ind room ih =>
    rw [fieldLines] at h
    split at h
    · obtain ⟨_, hend, rfl⟩ := Scan.map_eq_done h
      obtain ⟨lineBreak, hbreak, rfl⟩ := lineEnd_eq_done_iff.mp hend
      exact ⟨lineBreak, .empty hbreak, rfl, Nat.zero_le room⟩
    · obtain ⟨field, behind, hfield, h⟩ := Scan.bind_eq_done h
      cases room with
      | zero => cases h
      | succ room =>
        obtain ⟨later, hlater, rfl⟩ := Scan.map_eq_done h
        obtain ⟨line, hline, rfl⟩ := fieldLine_eq_done_iff.mp hfield
        obtain ⟨block, hblock, rfl, hlength⟩ := ih room (Nat.lt_succ_self room) hlater
        exact ⟨line ++ block, .field hline hblock, by rw [List.append_assoc],
          Nat.succ_le_succ hlength⟩

end

/-! ## Heads -/

section
variable {kind : Kind} {maxFields : Nat} {input rest block : Bytes} {head : Head}

/-- **The language of heads.** A head is accepted exactly if its lines stand at the front of the
input and there is room for its fields. -/
theorem parse_eq_done_iff :
    parse kind maxFields input = .done head rest ↔
      ∃ block, Lines kind head block ∧ input = block ++ rest ∧ head.fields.length ≤ maxFields := by
  constructor
  · intro h
    obtain ⟨start, _, hstart, h⟩ := Scan.bind_eq_done h
    obtain ⟨fields, hfields, rfl⟩ := Scan.map_eq_done h
    obtain ⟨line, hline, rfl⟩ := startLine_eq_done_iff.mp hstart
    obtain ⟨block, hblock, rfl, hlength⟩ := exists_fieldLines hfields
    exact ⟨line ++ block, .intro hline hblock, by rw [List.append_assoc], hlength⟩
  · rintro ⟨block, ⟨hline, hblock⟩, rfl, hroom⟩
    rw [parse, List.append_assoc, startLine_eq_done_iff.mpr ⟨_, hline, rfl⟩, Scan.bind_done,
      hblock.read hroom, Scan.map_done]

/-- **A head that is made of lines has too many fields** exactly if there is no room for them. -/
theorem Lines.tooManyFields_iff (h : Lines kind head block) (rest : Bytes) :
    parse kind maxFields (block ++ rest) = .failed .tooManyFields ↔
      maxFields < head.fields.length := by
  constructor
  · intro hfailed
    by_contra hroom
    rw [parse_eq_done_iff.mpr ⟨block, h, rfl, Nat.le_of_not_lt hroom⟩] at hfailed
    cases hfailed
  · intro hroom
    obtain ⟨hline, hblock⟩ := h
    rw [parse, List.append_assoc, startLine_eq_done_iff.mpr ⟨_, hline, rfl⟩, Scan.bind_done,
      hblock.tooManyFields hroom, Scan.map_failed]

/-- Lines that make up a head make it up for readers that have room. -/
theorem Lines.parse (h : Lines kind head block) :
    Head.parse kind head.fields.length block = .done head [] :=
  parse_eq_done_iff.mpr ⟨block, h, by rw [List.append_nil], Nat.le_refl _⟩

theorem Lines.hasEnding (h : Lines kind head block) : hasEnding block = true := by
  obtain ⟨front, hfront, hending⟩ := hasEnding_of_parse_done h.parse
  rw [hfront, List.append_nil]
  exact hending

/-- What is accepted with nothing left over is made of lines. -/
theorem lines_of_parse_done (h : Head.parse kind maxFields block = .done head []) :
    Lines kind head block ∧ head.fields.length ≤ maxFields := by
  obtain ⟨front, hlines, hfront, hroom⟩ := parse_eq_done_iff.mp h
  rw [List.append_nil] at hfront
  exact ⟨hfront ▸ hlines, hroom⟩

end

end HttpWire.Head
