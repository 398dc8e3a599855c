import HttpWire.Proofs.Framing.Rules
import HttpWire.Proofs.Message.Written
import HttpWire.Response
/-!
# What a response writes

The responses whose written form can be read back, and what the grammar makes of the head of one:
its status, the reason phrase that goes with it, its live fields and the length of its body.
-/

namespace HttpWire

/-! ## Status lines -/

namespace Head

/-- A code of three digits is written with three digits. -/
theorem exists_digits {n : Nat} (hlow : 100 ≤ n) (hhigh : n ≤ 999) :
    ∃ a b c : Char, Nat.toDigits 10 n = [a, b, c] := by
  have hle : (Nat.toDigits 10 n).length ≤ 3 :=
    (Nat.length_toDigits_le_iff (by decide) (by decide)).mpr (by omega)
  have hgt : ¬ (Nat.toDigits 10 n).length ≤ 2 := by
    rw [Nat.length_toDigits_le_iff (by decide) (by decide)]
    omega
  exact List.length_eq_three.mp (by omega)

theorem digit_append {error : Error} {c : Char} (hc : c.isDigit = true) (rest : Bytes) :
    digit error (c.toNat.toUInt8 :: rest) = .done (c.toNat - 0x30) rest := by
  obtain ⟨hvalue, hdigit, -⟩ := Utf8.byte_of_isDigit hc
  rw [digit, if_pos hdigit, hvalue]

/-- **A status code reads back.** -/
theorem statusCode_append {code : UInt16} (hlow : 100 ≤ code) (hhigh : code ≤ 999) (rest : Bytes) :
    statusCode (Utf8.encode (Nat.repr code.toNat) ++ rest) = .done code rest := by
  obtain ⟨a, b, c, hdigits⟩ := exists_digits (UInt16.le_iff_toNat_le.mp hlow)
    (UInt16.le_iff_toNat_le.mp hhigh)
  have hdigit : ∀ d ∈ [a, b, c], d.isDigit = true := by
    intro d hd
    rw [← hdigits] at hd
    exact Framing.isDigit_of_mem_toDigits hd
  have hvalue := Nat.ofDigitChars_ten_toDigits (n := code.toNat)
  rw [hdigits] at hvalue
  simp only [Nat.ofDigitChars_cons, Nat.ofDigitChars_nil] at hvalue
  have hcode : 100 * (a.toNat - 0x30) + 10 * (b.toNat - 0x30) + (c.toNat - 0x30) = code.toNat := by
    rw [← hvalue]
    show _ = 10 * (10 * (10 * 0 + (a.toNat - 0x30)) + (b.toNat - 0x30)) + (c.toNat - 0x30)
    omega
  rw [Framing.encode_repr, hdigits]
  simp only [List.map_cons, List.map_nil, List.cons_append, List.nil_append, statusCode]
  rw [digit_append (hdigit a (by simp)), Scan.bind_done, digit_append (hdigit b (by simp)),
    Scan.bind_done, digit_append (hdigit c (by simp)), Scan.map_done, hcode]
  simp

/-- **A status line reads back.** -/
theorem statusLine_append {code : UInt16} (hlow : 100 ≤ code) (hhigh : code ≤ 999) {reason : Bytes}
    (hreason : ∀ b ∈ reason, Byte.isText b = true) (rest : Bytes) :
    statusLine (Message.version ++ [Byte.space] ++ Utf8.encode (Nat.repr code.toNat) ++
      [Byte.space] ++ reason ++ Message.lineBreak ++ rest) = .done (.status 1 code reason) rest := by
  have hline : Message.version ++ [Byte.space] ++ Utf8.encode (Nat.repr code.toNat) ++
      [Byte.space] ++ reason ++ Message.lineBreak ++ rest =
        Message.version ++ (Byte.space :: (Utf8.encode (Nat.repr code.toNat) ++
          (Byte.space :: (reason ++ Message.lineBreak ++ rest)))) := by
    simp
  rw [hline, statusLine, version_append, Scan.bind_done, byte, if_pos rfl, Scan.bind_done,
    statusCode_append hlow hhigh, Scan.bind_done, reasonLine, if_pos rfl, textLine_append hreason,
    Scan.map_done]

end Head

/-- Every reason phrase is running text. -/
theorem Status.isText_of_mem_reason (code : UInt16) :
    ∀ b ∈ Utf8.encode (Status.reason code), Byte.isText b = true := by
  have hall : ∀ entry ∈ Status.reasons, (Utf8.encode entry.2).all Byte.isText = true := by
    decide +kernel
  have hunknown : (Utf8.encode Status.unknownReason).all Byte.isText = true := by decide +kernel
  unfold Status.reason Status.reason?
  cases hlookup : Status.reasons.lookup code with
  | none => exact List.all_eq_true.mp hunknown
  | some reason =>
    obtain ⟨before, after, heq, -⟩ := List.lookup_eq_some_iff.mp hlookup
    exact List.all_eq_true.mp (hall (code, reason) (by simp [heq]))

namespace Response

/-! ## Responses that can be read back -/

/-- What has to hold of a response for its written form to read back as the same response. -/
structure IsWritable (r : Response) : Prop where
  status : 100 ≤ r.status ∧ r.status ≤ 999
  /-- Some codes exclude a body. -/
  bodyless : r.status < 200 ∨ r.status = 204 ∨ r.status = 304 → r.message.body = #[]
  message : r.message.IsWritable

instance (r : Response) : Decidable r.IsWritable :=
  decidable_of_iff
    ((100 ≤ r.status ∧ r.status ≤ 999) ∧
      (r.status < 200 ∨ r.status = 204 ∨ r.status = 304 → r.message.body = #[]) ∧
      r.message.IsWritable)
    ⟨fun ⟨a, b, c⟩ => ⟨a, b, c⟩, fun ⟨a, b, c⟩ => ⟨a, b, c⟩⟩

/-- The head of a response: its bytes up to the body. -/
def headBytes (r : Response) : Bytes :=
  r.statusLine ++ (r.message.writtenFields.map Field.ofEntry).flatMap Field.line ++
    Message.lineBreak

theorem bytes_eq (r : Response) : r.bytes = r.headBytes ++ r.message.body.toList := by
  rw [bytes, Message.bytes_eq, headBytes]
  simp

/-- What a reader makes of the head of a response that was written. -/
def writtenHead (r : Response) : Head where
  start := .status 1 r.status (Utf8.encode (Status.reason r.status))
  fields := r.message.writtenFields.map Field.ofEntry

/-- The start line as a reader reports it. -/
def writtenStart (r : Response) : Start := { status := r.status, version := 1 }

/-- Whether the head frames the body that is written behind it: it has the length of the body, or
switches protocols and there is no body. -/
def FramesBody (r : Response) : Prop :=
  Framing.ofHead .response r.writtenStart r.writtenHead.fields =
      .ok (.length r.message.body.size) ∨
    Framing.ofHead .response r.writtenStart r.writtenHead.fields = .ok .protocolSwitch ∧
      r.message.body = #[]

/-- **The head reads back**, if its status has three digits and its fields are plain. -/
theorem parse_headBytes {r : Response} (hstatus : 100 ≤ r.status ∧ r.status ≤ 999)
    (hplain : ∀ entry ∈ r.message.writtenFields, (Field.ofEntry entry).IsPlain) {maxFields : Nat}
    (hroom : r.message.writtenFields.length ≤ maxFields) :
    Head.parse .response maxFields r.headBytes = .done r.writtenHead [] := by
  have hstart := Head.statusLine_append hstatus.1 hstatus.2 (Status.isText_of_mem_reason r.status)
    ((r.message.writtenFields.map Field.ofEntry).flatMap Field.line ++ Message.lineBreak)
  have hlines := Message.fieldLines_of_plain hplain hroom []
  have hhead : r.headBytes = r.statusLine ++
      ((r.message.writtenFields.map Field.ofEntry).flatMap Field.line ++ Message.lineBreak) :=
    List.append_assoc ..
  rw [List.append_nil] at hlines
  rw [Head.parse, hhead, Head.startLine, statusLine, hstart, Scan.bind_done, hlines, Scan.map_done]
  rfl

namespace IsWritable

variable {r : Response} (h : r.IsWritable)
include h

/-- **The written head frames the written body**, unless it switches protocols, and then there is
no body. -/
theorem framesBody : r.FramesBody := by
  unfold FramesBody Framing.ofHead writtenHead
  rw [h.message.ofFields_writtenFields]
  unfold Except.map
  dsimp only
  by_cases hswitch : Framing.switchesProtocol .response r.writtenStart
      (r.message.writtenFields.map Field.ofEntry) = true
  · right
    rw [if_pos hswitch]
    -- Only the code 101 switches protocols.
    simp only [Framing.switchesProtocol, Bool.and_eq_true, beq_iff_eq] at hswitch
    have hcode : r.status = 101 := hswitch.1
    refine ⟨rfl, h.bodyless (.inl ?_)⟩
    rw [hcode]
    decide
  · left
    rw [if_neg hswitch]
    by_cases hexcludes :
        (Kind.response == .response && Status.isBodyless r.writtenStart.status) = true
    · have hempty : r.message.body = #[] := by
        obtain ⟨-, ⟨-, hlow⟩ | hother⟩ := Framing.excludesBody_iff.mp hexcludes
        · exact h.bodyless (.inl hlow)
        · exact h.bodyless (.inr hother)
      rw [if_pos hexcludes, hempty]
      rfl
    · rw [if_neg hexcludes]
      rfl

end IsWritable

end Response

end HttpWire
