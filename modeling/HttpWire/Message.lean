import HttpWire.Headers
import HttpWire.Reader.Room
/-!
# Messages

What requests and responses have in common: header fields and a body, how they are written after
the start line, and how they fill up from the events of a reader.
-/

namespace HttpWire

/-- How far the message that is being received has come. -/
inductive Phase where
  /-- Nothing has come yet. -/
  | awaitingMessage
  /-- The start line or the fields are being read. -/
  | inHeaders
  /-- The body is being read. -/
  | inBody
  /-- The message has come. -/
  | complete
  deriving DecidableEq, Repr

/-- What a call that received some input says about the message. -/
inductive Receipt where
  /-- More input is needed. -/
  | incomplete
  /-- A message has come and no other has begun. -/
  | complete
  deriving DecidableEq, Repr

/-- The receipt for a phase. -/
def Phase.receipt : Phase → Receipt
  | .complete => .complete
  | _ => .incomplete

/-- The fields and the body of a message. -/
structure Message where
  headers : Headers := {}
  body : Array UInt8 := #[]
  /-- How far receiving has come. -/
  phase : Phase := .awaitingMessage
  /-- The name of the field whose value comes next. -/
  pendingName : Bytes := []
  deriving DecidableEq, Repr

namespace Message

/-! ## Writing -/

/-- The version that is written. -/
def version : Bytes := Utf8.encode "HTTP/1.1"

/-- The field that gives the length of a body. -/
def lengthName : String := "Content-Length"

/-- The bytes that end a line. -/
def lineBreak : Bytes := [Byte.cr, Byte.lf]

/-- A field line. -/
def fieldLine (field : String × String) : Bytes :=
  Utf8.encode field.1 ++ [Byte.colon] ++ Utf8.encode field.2 ++ lineBreak

/-- The fields that are written: those that have a value, and the length of the body after them
unless one of them gives a length. -/
def writtenFields (m : Message) : List (String × String) :=
  let live := m.headers.live
  if live.any fun field => sameName field.1 lengthName then live
  else live ++ [(lengthName, Nat.repr m.body.size)]

/-- Everything after the start line: the field lines, the empty line and the body. -/
def bytes (m : Message) : Bytes :=
  m.writtenFields.flatMap fieldLine ++ lineBreak ++ m.body.toList

/-! ## Receiving -/

/-- The name of the field whose value comes next, as it will be stored. -/
def pendingField (m : Message) : String := Utf8.decodeLossy m.pendingName

/-- Takes in an event. A new message takes the place of the one before. -/
def receive (m : Message) : Event → Message
  | .messageBegin => { phase := .inHeaders }
  | .target _ => m
  | .fieldName name => { m with pendingName := name }
  | .fieldValue value =>
    { m with headers := m.headers.insert m.pendingField (Utf8.decodeLossy value) }
  | .headersComplete _ => { m with phase := .inBody }
  | .body piece => { m with body := m.body ++ piece }
  | .messageComplete _ => { m with phase := .complete }

/-- The answer to a call that handed `supplied` bytes to a reader. Bytes that the reader left
over are an error. -/
def answer (m : Message) (result : Except Error Nat) (supplied : Nat) : Except Error Receipt :=
  result.bind fun consumed =>
    if consumed < supplied then .error (.unconsumed consumed supplied) else .ok m.phase.receipt

end Message

end HttpWire
