/-!
# Errors

Everything that can be wrong with a text or a byte stream, one constructor for each cause, and
the sentence that reports it.
-/

namespace HttpWire

/-- Why a text was refused or the reading of a stream stopped. -/
inductive Error where
  /-- The text is not a URL. -/
  | invalidUrl
  /-- A query parameter needs a key and a value that are not empty. -/
  | emptyParam
  /-- The method is not in the method table. -/
  | unknownMethod
  /-- The method or the target of a request line holds a byte that it may not hold. -/
  | invalidToken
  /-- A field line does not start with a token and a colon. -/
  | invalidFieldName
  /-- A field value holds a control character. -/
  | invalidFieldValue
  /-- The version is neither HTTP/1.0 nor HTTP/1.1. -/
  | invalidVersion
  /-- The status code is not three digits, or the reason phrase holds a control character. -/
  | invalidStatus
  /-- A line that should end here goes on, or a carriage return has no line feed after it. -/
  | badLineEnd
  /-- The head has more field lines than the reader's limit. -/
  | tooManyFields
  /-- The head has more bytes than the reader's limit. -/
  | headTooLarge
  /-- A Content-Length is not a 64-bit number, or two of them differ. -/
  | invalidContentLength
  /-- The framing of a chunked body is broken. -/
  | invalidChunkSize
  /-- The input ended inside a message. -/
  | unexpectedEnd
  /-- Reading stopped before the end of the data, at a switch of protocols. -/
  | unconsumed (consumed supplied : Nat)
  deriving DecidableEq, Repr

/-- The sentence that reports the error. -/
def Error.message : Error → String
  | .invalidUrl => "invalid url"
  | .emptyParam => "empty query parameter key or value"
  | .unknownMethod => "invalid method"
  | .invalidToken => "invalid token"
  | .invalidFieldName => "invalid header name"
  | .invalidFieldValue => "invalid header value"
  | .invalidVersion => "invalid http version"
  | .invalidStatus => "invalid status code"
  | .badLineEnd => "invalid line ending"
  | .tooManyFields => "too many headers"
  | .headTooLarge => "message head too large"
  | .invalidContentLength => "invalid content-length"
  | .invalidChunkSize => "invalid chunk size"
  | .unexpectedEnd => "unexpected end of input"
  | .unconsumed consumed supplied => s!"parsed {consumed} of {supplied} bytes"

end HttpWire
