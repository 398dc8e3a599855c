import HttpWire.Message
import HttpWire.Proofs.Head.Cut
import HttpWire.Proofs.Trim
/-!
# Heads as they are written

The grammar reads a written head back: the start line, then field by field, with what follows the
empty line left over. Field values come back without blanks at their ends, so those that can be
written have none there.
-/

namespace HttpWire

/-- A field whose line reads back as the field: the name is a token, and the value is running text
without blanks at its ends. -/
structure Field.IsPlain (field : Field) : Prop where
  name_ne_nil : field.name ≠ []
  name : ∀ b ∈ field.name, Byte.isToken b = true
  value : ∀ b ∈ field.value, Byte.isText b = true
  value_head : ∀ b ∈ field.value.head?, Byte.isBlank b = false
  value_last : ∀ b ∈ field.value.getLast?, Byte.isBlank b = false

instance (field : Field) : Decidable field.IsPlain :=
  decidable_of_iff
    (field.name ≠ [] ∧ field.name.all Byte.isToken = true ∧ field.value.all Byte.isText = true ∧
      field.value.head?.all (!Byte.isBlank ·) = true ∧
        field.value.getLast?.all (!Byte.isBlank ·) = true)
    ⟨fun ⟨a, b, c, d, e⟩ =>
        ⟨a, List.all_eq_true.mp b, List.all_eq_true.mp c, by simpa [Option.all_eq_true] using d,
          by simpa [Option.all_eq_true] using e⟩,
      fun ⟨a, b, c, d, e⟩ =>
        ⟨a, List.all_eq_true.mpr b, List.all_eq_true.mpr c, by simpa [Option.all_eq_true] using d,
          by simpa [Option.all_eq_true] using e⟩⟩

/-- The line of a field. -/
def Field.line (field : Field) : Bytes :=
  field.name ++ [Byte.colon] ++ field.value ++ Message.lineBreak

namespace Head

/-! ## Pieces of lines -/

theorem run_append {inClass : UInt8 → Bool} {bytes : Bytes} {after : UInt8}
    (hbytes : ∀ b ∈ bytes, inClass b = true) (hafter : inClass after = false) (rest : Bytes) :
    run inClass (bytes ++ after :: rest) = .done bytes (after :: rest) := by
  have hstop : ∀ b ∈ (after :: rest).head?, inClass b = false := by
    intro b hb
    cases hb
    exact hafter
  rw [run, dropWhile_run hbytes hstop, takeWhile_run hbytes hstop]

theorem word_append {inClass : UInt8 → Bool} {bytes : Bytes} {after : UInt8} {error : Error}
    (hne : bytes ≠ []) (hbytes : ∀ b ∈ bytes, inClass b = true) (hafter : inClass after = false)
    (rest : Bytes) : word inClass after error (bytes ++ after :: rest) = .done bytes rest := by
  rw [word, run_append hbytes hafter, Scan.bind_done, if_neg (by simpa using hne), byte, if_pos rfl,
    Scan.map_done]

theorem literal_append (error : Error) (expected rest : Bytes) :
    literal error expected (expected ++ rest) = .done () rest := by
  induction expected with
  | nil => rfl
  | cons b expected ih => rw [List.cons_append, literal, byte, if_pos rfl, Scan.bind_done, ih]

theorem lineEnd_lineBreak (error : Error) (rest : Bytes) :
    lineEnd error (Message.lineBreak ++ rest) = .done () rest := rfl

theorem textLine_append {error : Error} {text : Bytes} (htext : ∀ b ∈ text, Byte.isText b = true)
    (rest : Bytes) : textLine error (text ++ Message.lineBreak ++ rest) = .done text rest := by
  have hcr : Byte.isText Byte.cr = false := by decide
  have hrun := run_append htext hcr (Byte.lf :: rest)
  rw [textLine, List.append_assoc]
  show ((run Byte.isText (text ++ Byte.cr :: Byte.lf :: rest)).bind _) = _
  rw [hrun]
  rfl

/-! ## Field lines -/

theorem fieldValue_append {value : Bytes} (htext : ∀ b ∈ value, Byte.isText b = true)
    (hhead : ∀ b ∈ value.head?, Byte.isBlank b = false)
    (hlast : ∀ b ∈ value.getLast?, Byte.isBlank b = false) (rest : Bytes) :
    fieldValue (value ++ Message.lineBreak ++ rest) = .done value rest := by
  have hblank : run Byte.isBlank (value ++ Message.lineBreak ++ rest) =
      .done [] (value ++ Message.lineBreak ++ rest) := by
    have hnone : ∀ b ∈ ([] : Bytes), Byte.isBlank b = true := by simp
    cases value with
    | nil =>
      have hcr : Byte.isBlank Byte.cr = false := by decide
      exact run_append hnone hcr _
    | cons b value => exact run_append hnone (hhead b rfl) _
  rw [fieldValue, hblank, Scan.bind_done, textLine_append htext, Scan.map_done,
    Bytes.trimEnd_eq hlast]

theorem fieldLine_line {field : Field} (h : field.IsPlain) (rest : Bytes) :
    fieldLine (field.line ++ rest) = .done field rest := by
  have hcolon : Byte.isToken Byte.colon = false := by decide
  have hline : field.line ++ rest =
      field.name ++ Byte.colon :: (field.value ++ Message.lineBreak ++ rest) := by
    simp [Field.line]
  rw [fieldLine, hline, word_append h.name_ne_nil h.name hcolon, Scan.bind_done,
    fieldValue_append h.value h.value_head h.value_last, Scan.map_done]

/-- No token starts with a line break. -/
theorem isBreak_of_isToken {b : UInt8} (h : Byte.isToken b = true) : Byte.isBreak b = false := by
  rw [Byte.isBreak, Bool.or_eq_false_iff, beq_eq_false_iff_ne, beq_eq_false_iff_ne]
  constructor
  · intro heq
    subst heq
    exact absurd h (by decide)
  · intro heq
    subst heq
    exact absurd h (by decide)

/-- **Field lines read back**, up to the empty line. -/
theorem fieldLines_append {fields : List Field} (h : ∀ field ∈ fields, field.IsPlain) {room : Nat}
    (hroom : fields.length ≤ room) (rest : Bytes) :
    fieldLines room (fields.flatMap Field.line ++ Message.lineBreak ++ rest) =
      .done fields rest := by
  induction fields generalizing room with
  | nil => exact fieldLines_break rfl
  | cons field fields ih =>
    have hfield := h field (by simp)
    -- A line that starts with a name is not the empty one.
    obtain ⟨b, name, hname⟩ := List.exists_cons_of_ne_nil hfield.name_ne_nil
    have hbreak : Byte.isBreak b = false := isBreak_of_isToken (hfield.name b (by simp [hname]))
    have hlines : (field :: fields).flatMap Field.line ++ Message.lineBreak ++ rest =
        field.line ++ (fields.flatMap Field.line ++ Message.lineBreak ++ rest) := by
      simp
    have hhead : (field.line ++ (fields.flatMap Field.line ++ Message.lineBreak ++ rest)).head?.any
        Byte.isBreak = false := by
      simp [Field.line, hname, hbreak]
    obtain ⟨room, rfl⟩ : ∃ n, room = n + 1 := by
      rw [List.length_cons] at hroom
      exact ⟨room - 1, by omega⟩
    rw [hlines, fieldLines_field hhead, fieldLine_line hfield, Scan.bind_done]
    dsimp only
    rw [ih (fun field hmem => h field (by simp [hmem])) (Nat.le_of_succ_le_succ hroom),
      Scan.map_done]

/-! ## Request heads -/

theorem version_append (rest : Bytes) : version (Message.version ++ rest) = .done 1 rest := by
  have hversion : Message.version = protocolName ++ [0x31] := by decide
  rw [version, hversion, List.append_assoc, literal_append, Scan.bind_done]
  rfl

theorem target_append {bytes : Bytes} (hne : bytes ≠ [])
    (hbytes : ∀ b ∈ bytes, Byte.isTarget b = true) (htext : (Utf8.decode? bytes).isSome = true)
    (rest : Bytes) : target (bytes ++ Byte.space :: rest) = .done bytes rest := by
  have hspace : Byte.isTarget Byte.space = false := by decide
  rw [target, word_append hne hbytes hspace, Scan.bind_done, if_pos htext]

/-- **A request line reads back.** -/
theorem requestLine_append {method bytes : Bytes} (hmethod : method ≠ [])
    (htoken : ∀ b ∈ method, Byte.isToken b = true) (hne : bytes ≠ [])
    (hbytes : ∀ b ∈ bytes, Byte.isTarget b = true) (htext : (Utf8.decode? bytes).isSome = true)
    (rest : Bytes) :
    requestLine (method ++ [Byte.space] ++ bytes ++ [Byte.space] ++ Message.version ++
      Message.lineBreak ++ rest) = .done (.request method bytes 1) rest := by
  have hspace : Byte.isToken Byte.space = false := by decide
  have hline : method ++ [Byte.space] ++ bytes ++ [Byte.space] ++ Message.version ++
      Message.lineBreak ++ rest =
        method ++ Byte.space :: (bytes ++ Byte.space ::
          (Message.version ++ (Message.lineBreak ++ rest))) := by
    simp
  rw [hline, requestLine, word_append hmethod htoken hspace, Scan.bind_done,
    target_append hne hbytes htext, Scan.bind_done, version_append, Scan.bind_done,
    lineEnd_lineBreak, Scan.map_done]

end Head

end HttpWire
