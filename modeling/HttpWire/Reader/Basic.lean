import HttpWire.Framing
import HttpWire.Chunked.Decoder
/-!
# Readers

A reader turns a stream of bytes, which may be cut anywhere, into the events of the messages in
it. This module holds what a reader reports, what it remembers and how it starts.
-/

namespace HttpWire

/-- What a reader reports about the messages it reads, in order. -/
inductive Event where
  /-- The first byte of a message has come. -/
  | messageBegin
  /-- The target of a request. -/
  | target (bytes : Bytes)
  /-- The name of a field. -/
  | fieldName (bytes : Bytes)
  /-- The value of the field named last. -/
  | fieldValue (bytes : Bytes)
  /-- The head is complete. -/
  | headersComplete (start : Start)
  /-- A piece of the body. -/
  | body (bytes : Bytes)
  /-- The message is complete. -/
  | messageComplete (start : Start)
  deriving DecidableEq, Repr

/-- What a reader puts up with. -/
structure Limits where
  /-- The most field lines that a head may have. -/
  maxFields : Nat := 64
  /-- The most bytes that a head may have. -/
  maxHeadLength : Nat := 81920
  deriving DecidableEq, Repr

namespace Reader

/-- Where in a body a reader is. -/
inductive Body where
  /-- `remaining` more bytes belong to the body. -/
  | length (remaining : Nat)
  /-- The body is chunked. -/
  | chunked (decoder : Chunked.Decoder)
  /-- The body lasts until the input ends. -/
  | untilEnd
  deriving DecidableEq, Repr

/-- Where in the stream a reader is. -/
inductive State where
  /-- In a head, of which `buffer` has come; between messages if that is nothing. -/
  | head (buffer : Array UInt8)
  /-- In a body. -/
  | body (body : Body)
  /-- After the last message before a switch of protocols. -/
  | switched
  /-- After an error. -/
  | failed (error : Error)
  deriving DecidableEq, Repr

/-- Between messages. -/
def State.idle : State := .head #[]

/-- Where a message with this framing leaves the reader after its head. A body of no bytes is
over at once. -/
def State.afterHead : Framing → State
  | .protocolSwitch => .switched
  | .length 0 => .idle
  | .length (n + 1) => .body (.length (n + 1))
  | .chunked => .body (.chunked .initial)
  | .untilEnd => .body .untilEnd

/-- Whether the state is inside a body. -/
def State.inBody : State → Bool
  | .body _ => true
  | _ => false

end Reader

/-- A reader of a stream of messages of one kind. -/
structure Reader (kind : Kind) where
  limits : Limits := {}
  state : Reader.State := .idle
  /-- The start line of the message whose head was completed last. -/
  start : Start := {}
  deriving DecidableEq, Repr

namespace Reader

variable {kind : Kind}

/-- Forgets the stream so far, errors included. -/
def reset (r : Reader kind) : Reader kind := { limits := r.limits }

/-- Whether the reader has stopped at a switch of protocols. -/
def isSwitched (r : Reader kind) : Bool := r.state == .switched

/-- What a reader did with some input: the events that it reported, the reader afterwards, and
how much of the input it consumed or why it failed. -/
structure Progress (kind : Kind) where
  events : List Event
  reader : Reader kind
  result : Except Error Nat

/-- Fails for good. -/
def fail (r : Reader kind) (events : List Event) (error : Error) : Progress kind :=
  ⟨events, { r with state := .failed error }, .error error⟩

/-- Moves on to another state. -/
def moveTo (r : Reader kind) (events : List Event) (state : State) (consumed : Nat) :
    Progress kind :=
  ⟨events, { r with state }, .ok consumed⟩

end Reader

end HttpWire
