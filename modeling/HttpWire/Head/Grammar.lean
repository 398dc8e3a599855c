import HttpWire.Head.Basic
import HttpWire.Text.Utf8
/-!
# The grammar of message heads

Readers for the lines of a head, each from the front of a buffer. A line ends in a line feed,
before which one carriage return may stand. The parts of a start line are set apart by exactly
one space. A field line is a token, a colon and the value, with blanks allowed around the value
only; no line is folded.

A reader reports the first thing that is wrong. It reports `incomplete` only when the buffer
ends and nothing in it is wrong so far.
-/

namespace HttpWire.Head

/-! ## Pieces of lines -/

/-- A line break: a line feed, or a carriage return and a line feed. -/
def lineEnd (error : Error) : Bytes → Scan Unit
  | [] => .incomplete
  | b :: rest =>
    if b = Byte.lf then .done () rest
    else if b = Byte.cr then
      match rest with
      | [] => .incomplete
      | c :: rest => if c = Byte.lf then .done () rest else .failed error
    else .failed error

/-- One given byte. -/
def byte (expected : UInt8) (error : Error) : Bytes → Scan Unit
  | [] => .incomplete
  | b :: rest => if b = expected then .done () rest else .failed error

/-- Some given bytes in a row. -/
def literal (error : Error) : Bytes → Bytes → Scan Unit
  | [], input => .done () input
  | expected :: more, input =>
    (byte expected error input).bind fun _ rest => literal error more rest

/-- One digit; its value. -/
def digit (error : Error) : Bytes → Scan Nat
  | [] => .incomplete
  | b :: rest => if Byte.isDigit b then .done (b.toNat - 0x30) rest else .failed error

/-- The longest run of bytes of one class, which some byte outside the class has to follow. -/
def run (inClass : UInt8 → Bool) (input : Bytes) : Scan Bytes :=
  match input.dropWhile inClass with
  | [] => .incomplete
  | b :: rest => .done (input.takeWhile inClass) (b :: rest)

/-- A run of one class that is not empty, and the one byte that has to follow it. -/
def word (inClass : UInt8 → Bool) (after : UInt8) (error : Error) (input : Bytes) : Scan Bytes :=
  (run inClass input).bind fun bytes rest =>
    if bytes.isEmpty then .failed error
    else (byte after error rest).map fun _ => bytes

/-- Running text up to the end of the line. -/
def textLine (error : Error) (input : Bytes) : Scan Bytes :=
  (run Byte.isText input).bind fun text rest => (lineEnd error rest).map fun _ => text

/-! ## Start lines -/

/-- The bytes `HTTP/1.`, with which a version starts. -/
def protocolName : Bytes := [0x48, 0x54, 0x54, 0x50, 0x2F, 0x31, 0x2E]

/-- A version, HTTP/1.0 or HTTP/1.1; its minor number. -/
def version (input : Bytes) : Scan Nat :=
  (literal .invalidVersion protocolName input).bind fun _ rest =>
    (digit .invalidVersion rest).bind fun minor rest =>
      if minor ≤ 1 then .done minor rest else .failed .invalidVersion

/-- A request target and the space after it. The target is text in UTF-8. -/
def target (input : Bytes) : Scan Bytes :=
  (word Byte.isTarget Byte.space .invalidToken input).bind fun bytes rest =>
    if (Utf8.decode? bytes).isSome then .done bytes rest else .failed .invalidToken

/-- A request line. -/
def requestLine (input : Bytes) : Scan StartLine :=
  (word Byte.isToken Byte.space .invalidToken input).bind fun method rest =>
    (target rest).bind fun target rest =>
      (version rest).bind fun minor rest =>
        (lineEnd .badLineEnd rest).map fun _ => .request method target minor

/-- A status code, which has three digits. -/
def statusCode (input : Bytes) : Scan UInt16 :=
  (digit .invalidStatus input).bind fun hundreds rest =>
    (digit .invalidStatus rest).bind fun tens rest =>
      (digit .invalidStatus rest).map fun ones => (100 * hundreds + 10 * tens + ones).toUInt16

/-- What follows a status code: a space and a reason phrase, or the end of the line at once. -/
def reasonLine : Bytes → Scan Bytes
  | [] => .incomplete
  | b :: rest =>
    if b = Byte.space then textLine .invalidStatus rest
    else (lineEnd .invalidStatus (b :: rest)).map fun _ => []

/-- A status line. -/
def statusLine (input : Bytes) : Scan StartLine :=
  (version input).bind fun minor rest =>
    (byte Byte.space .invalidVersion rest).bind fun _ rest =>
      (statusCode rest).bind fun code rest =>
        (reasonLine rest).map fun reason => .status minor code reason

/-- The start line of a kind of message. -/
def startLine : Kind → Bytes → Scan StartLine
  | .request => requestLine
  | .response => statusLine

/-! ## Field lines -/

/-- The value of a field and the end of its line. -/
def fieldValue (input : Bytes) : Scan Bytes :=
  (run Byte.isBlank input).bind fun _ rest =>
    (textLine .invalidFieldValue rest).map Bytes.trimEnd

/-- A field line. -/
def fieldLine (input : Bytes) : Scan Field :=
  (word Byte.isToken Byte.colon .invalidFieldName input).bind fun name rest =>
    (fieldValue rest).map fun value => ⟨name, value⟩

/-- Field lines up to the empty line, at most `room` of them. A line in excess is reported
only if it is a field line in itself. -/
def fieldLines (room : Nat) (input : Bytes) : Scan (List Field) :=
  if input.head?.any Byte.isBreak then (lineEnd .badLineEnd input).map fun _ => []
  else
    (fieldLine input).bind fun field rest =>
      match room with
      | 0 => .failed .tooManyFields
      | room + 1 => (fieldLines room rest).map (field :: ·)

/-! ## Heads -/

/-- A head with at most `maxFields` field lines. -/
def parse (kind : Kind) (maxFields : Nat) (input : Bytes) : Scan Head :=
  (startLine kind input).bind fun start rest =>
    (fieldLines maxFields rest).map fun fields => ⟨start, fields⟩

end HttpWire.Head
