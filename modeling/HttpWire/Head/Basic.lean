import HttpWire.Error
import HttpWire.Byte
/-!
# Message heads

A message head is a start line and field lines, up to and including the first empty line. This
module holds its parts and the result of reading some of them off the front of a buffer.
-/

namespace HttpWire

/-- Which start line the messages of a stream have. -/
inductive Kind where
  | request
  | response
  deriving DecidableEq, Repr

/-- The first line of a message. The version is the minor number of HTTP/1. -/
inductive StartLine where
  /-- A request line: method, target and version. -/
  | request (method target : Bytes) (version : Nat)
  /-- A status line: version, code and reason phrase. -/
  | status (version : Nat) (code : UInt16) (reason : Bytes)
  deriving DecidableEq, Repr

/-- A field line, without the colon and the blanks around the value. -/
structure Field where
  name : Bytes
  value : Bytes
  deriving DecidableEq, Repr

/-- A message head. -/
structure Head where
  start : StartLine
  fields : List Field
  deriving DecidableEq, Repr

/-- What reading some part off the front of a buffer comes to. -/
inductive Scan (α : Type) where
  /-- The part was there and `rest` follows it. -/
  | done (value : α) (rest : Bytes)
  /-- The buffer ends before the part does. -/
  | incomplete
  /-- The part is malformed, whatever may follow the buffer. -/
  | failed (error : Error)
  deriving DecidableEq, Repr

namespace Scan

variable {α β : Type}

/-- Reads on with what follows a part. -/
def bind (scan : Scan α) (next : α → Bytes → Scan β) : Scan β :=
  match scan with
  | done value rest => next value rest
  | incomplete => incomplete
  | failed error => failed error

/-- Turns the part that was read into something else. -/
def map (f : α → β) (scan : Scan α) : Scan β :=
  scan.bind fun value rest => done (f value) rest

@[simp] theorem bind_done (value : α) (rest : Bytes) (next : α → Bytes → Scan β) :
    (done value rest).bind next = next value rest := rfl

@[simp] theorem bind_incomplete (next : α → Bytes → Scan β) :
    (incomplete : Scan α).bind next = incomplete := rfl

@[simp] theorem bind_failed (error : Error) (next : α → Bytes → Scan β) :
    (failed error : Scan α).bind next = failed error := rfl

@[simp] theorem map_done (f : α → β) (value : α) (rest : Bytes) :
    (done value rest).map f = done (f value) rest := rfl

@[simp] theorem map_incomplete (f : α → β) : (incomplete : Scan α).map f = incomplete := rfl

@[simp] theorem map_failed (f : α → β) (error : Error) :
    (failed error : Scan α).map f = failed error := rfl

end Scan

end HttpWire
