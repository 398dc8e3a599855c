import HttpWire.Message
/-!
# Responses

A response that can be written to the wire, and filled from it stretch by stretch.
-/

namespace HttpWire

/-- A response, and the reader that fills it. The status 0 stands for none. -/
structure Response where
  status : UInt16 := 0
  message : Message := {}
  reader : Reader .response := {}
  deriving DecidableEq, Repr

namespace Response

/-- An empty response whose reader has these limits. -/
def withLimits (limits : Limits) : Response := { reader := { limits } }

/-! ## Writing -/

/-- The status line. -/
def statusLine (r : Response) : Bytes :=
  Message.version ++ [Byte.space] ++ Utf8.encode (Nat.repr r.status.toNat) ++ [Byte.space] ++
    Utf8.encode (Status.reason r.status) ++ Message.lineBreak

/-- The bytes of a response. -/
def bytes (r : Response) : Bytes := r.statusLine ++ r.message.bytes

/-! ## Receiving -/

/-- Takes in an event. The status is that of the last complete message. -/
def receive (r : Response) (event : Event) : Response :=
  match event with
  | .messageComplete start =>
    { r with status := start.status, message := r.message.receive event }
  | event => { r with message := r.message.receive event }

/-- Hands the next stretch of input to the reader and takes in what it reports. An empty one
says that the input has ended. -/
def parse (r : Response) (input : Bytes) : Response × Except Error Receipt :=
  -- Taken apart first: a buffer that nothing else refers to grows in place.
  match r with
  | ⟨status, message, reader⟩ =>
    match reader.feed input with
    | ⟨events, reader, result⟩ =>
      let r := events.foldl receive ⟨status, message, reader⟩
      (r, r.message.answer result input.length)

/-- The same if the call to the reader comes back. -/
def parse? (r : Response) (input : Bytes) : Option (Response × Except Error Receipt) :=
  if r.reader.lacksRoom input then none else some (r.parse input)

end Response

end HttpWire
