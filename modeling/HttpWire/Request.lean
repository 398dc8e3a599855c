import HttpWire.Credentials
import HttpWire.Message
import HttpWire.Url.Parse
/-!
# Requests

A request that can be written to the wire, and filled from it stretch by stretch. Credentials
travel in the `Authorization` field: writing puts the user information of the URL there, and
receiving takes it from there.
-/

namespace HttpWire

/-- A request, and the reader that fills it. -/
structure Request where
  method? : Option Method := none
  url : Url := {}
  message : Message := {}
  reader : Reader .request := {}
  deriving DecidableEq, Repr

namespace Request

/-- An empty request whose reader has these limits. -/
def withLimits (limits : Limits) : Request := { reader := { limits } }

/-! ## Writing -/

/-- The target in origin form, with query values in their written form. -/
def target (r : Request) : String :=
  String.ofList
    ((r.url.path?.getD "/").toList ++ Url.queryText Percent.encode r.url.params ++
      Url.fragmentText r.url.fragment?)

/-- The request with its credentials in the `Authorization` field, in place of what was there.
Without user information nothing changes. -/
def authorize (r : Request) : Request :=
  match r.url.userinfo? with
  | none => r
  | some userinfo =>
    { r with
      message := { r.message with
        headers := r.message.headers.insert Credentials.fieldName (Credentials.encode userinfo) } }

/-- The request line. The method is GET if none is set. -/
def requestLine (r : Request) : Bytes :=
  (r.method?.getD .get).bytes ++ [Byte.space] ++ Utf8.encode r.target ++ [Byte.space] ++
    Message.version ++ Message.lineBreak

/-- The bytes of a request as it stands. -/
def bytes (r : Request) : Bytes := r.requestLine ++ r.message.bytes

/-- Writes a request: fills in its credentials and gives its bytes. -/
def build (r : Request) : Request × Bytes := (r.authorize, r.authorize.bytes)

/-! ## Receiving -/

/-- The URL after a target, which replaces it if it is text and a URL. -/
def receiveTarget (url : Url) (target : Bytes) : Url :=
  match Utf8.decode? target with
  | some text => url.replaceBy text
  | none => url

/-- The URL after a field. An `Authorization` field with basic credentials sets the user
information. -/
def receiveField (url : Url) (name value : String) : Url :=
  if sameName name Credentials.fieldName then
    match Credentials.decode? value with
    | some userinfo => { url with userinfo? := some userinfo }
    | none => url
  else url

/-- Takes in an event. The method is that of the last complete message. -/
def receive (r : Request) (event : Event) : Request :=
  match event with
  | .target bytes =>
    { r with url := receiveTarget r.url bytes, message := r.message.receive event }
  | .fieldValue value =>
    { r with
      url := receiveField r.url r.message.pendingField (Utf8.decodeLossy value)
      message := r.message.receive event }
  | .messageComplete start =>
    { r with method? := start.method, message := r.message.receive event }
  | event => { r with message := r.message.receive event }

/-- Hands the next stretch of input to the reader and takes in what it reports. An empty one
says that the input has ended. -/
def parse (r : Request) (input : Bytes) : Request × Except Error Receipt :=
  -- Taken apart first: a buffer that nothing else refers to grows in place.
  match r with
  | ⟨method?, url, message, reader⟩ =>
    match reader.feed input with
    | ⟨events, reader, result⟩ =>
      let r := events.foldl receive ⟨method?, url, message, reader⟩
      (r, r.message.answer result input.length)

/-- The same if the call to the reader comes back. -/
def parse? (r : Request) (input : Bytes) : Option (Request × Except Error Receipt) :=
  if r.reader.lacksRoom input then none else some (r.parse input)

end Request

end HttpWire
