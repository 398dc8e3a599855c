import HttpWire.Head.Basic
import HttpWire.Method
import HttpWire.Status
/-!
# Framing

Where a message ends: what its head says about its body. The decision looks at the start line
and at four fields, whose names and keywords are compared without regard to letter case:
`Connection` and `Upgrade`, `Transfer-Encoding`, `Content-Length`.
-/

namespace HttpWire

/-- The start line of a message as far as it matters for what follows it, and as a reader
reports it. A response has no method and a request has status 0. Before the first message all
is empty. -/
structure Start where
  method : Option Method := none
  status : UInt16 := 0
  version : Nat := 0
  deriving DecidableEq, Repr

/-- How the body of a message is delimited. -/
inductive Framing where
  /-- There is no body, and what follows is no message but another protocol. -/
  | protocolSwitch
  /-- The body has this many bytes. -/
  | length (bytes : Nat)
  /-- The body is a sequence of chunks. -/
  | chunked
  /-- The body lasts until the input ends. -/
  | untilEnd
  deriving DecidableEq, Repr

namespace StartLine

/-- The start line with its method looked up in the table. -/
def start : StartLine → Except Error Start
  | .request method _ version =>
    match Method.ofBytes? method with
    | some method => .ok { method, version }
    | none => .error .unknownMethod
  | .status version code _ => .ok { status := code, version }

end StartLine

namespace Framing

/-! ## Fields -/

/-- The values of all fields of one name, in order. -/
def valuesOf (name : String) (fields : List Field) : List Bytes :=
  (fields.filter fun field => field.name.sameLetters (Utf8.encode name)).map (·.value)

/-- Whether a byte string is a given keyword. -/
def isKeyword (keyword : String) (bytes : Bytes) : Bool := bytes.sameLetters (Utf8.encode keyword)

/-- Whether the fields ask for a switch of protocols: some `Connection` lists `upgrade` and
there is an `Upgrade`. -/
def asksForUpgrade (fields : List Field) : Bool :=
  (valuesOf "Connection" fields).any (fun value => value.listElements.any (isKeyword "upgrade")) &&
    !(valuesOf "Upgrade" fields).isEmpty

/-- Whether some `Transfer-Encoding` ends in the coding `chunked`. -/
def isChunked (fields : List Field) : Bool :=
  (valuesOf "Transfer-Encoding" fields).any fun value =>
    value.listElements.getLast?.any (isKeyword "chunked")

/-- The length that a `Content-Length` denotes: digits only, at least one of them, and a
number that fits into 64 bits. -/
def lengthOf? (value : Bytes) : Option Nat :=
  let digits := value.trim
  if !digits.isEmpty && digits.all Byte.isDigit && digits.decimalValue < UInt64.size then
    some digits.decimalValue
  else none

/-- The length on which all of the `Content-Length` values agree; none if there are none. -/
def agreedLength (values : List Bytes) : Except Error (Option Nat) :=
  match values.mapM lengthOf? with
  | none => .error .invalidContentLength
  | some [] => .ok none
  | some (n :: others) =>
    if others.all (· == n) then .ok (some n) else .error .invalidContentLength

/-- The framing that the fields ask for by themselves. Chunks win over a length, which is then
not looked at. -/
def ofFields (fields : List Field) : Except Error (Option Framing) :=
  if isChunked fields then .ok (some .chunked)
  else (agreedLength (valuesOf "Content-Length" fields)).map (·.map .length)

/-! ## Messages -/

/-- Whether the bytes after the head belong to another protocol: after a CONNECT request, a
request for an upgrade and the response 101 that grants one. -/
def switchesProtocol (kind : Kind) (start : Start) (fields : List Field) : Bool :=
  match kind with
  | .request => start.method == some .connect || asksForUpgrade fields
  | .response => start.status == 101 && asksForUpgrade fields

/-- The framing when the fields ask for none: a request has no body, a response has one that
lasts until the input ends. -/
def ofKind : Kind → Framing
  | .request => .length 0
  | .response => .untilEnd

/-- The framing of a message. Its length fields have to be sound in any case; a switch of
protocols comes first, then the status codes that exclude a body, then the fields. -/
def ofHead (kind : Kind) (start : Start) (fields : List Field) : Except Error Framing :=
  (ofFields fields).map fun asked =>
    if switchesProtocol kind start fields then .protocolSwitch
    else if kind == .response && Status.isBodyless start.status then .length 0
    else asked.getD (ofKind kind)

end Framing

end HttpWire
