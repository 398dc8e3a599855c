import HttpWire.Text.Base64
import HttpWire.Text.Blank
import HttpWire.Text.Utf8
/-!
# Basic credentials

The value of an `Authorization` field that carries a user and a password: the word `Basic`, a
space, and the base64 of the text.
-/

namespace HttpWire.Credentials

/-- The field that carries credentials. -/
def fieldName : String := "Authorization"

/-- The word and the space before the base64. -/
def scheme : List Char := "Basic ".toList

/-- The field value for some user information. -/
def encode (userinfo : String) : String :=
  String.ofList (scheme ++ Base64.encode (Utf8.encode userinfo))

/-- The user information in a field value, if there is any. Blanks around the base64 do not
matter, and what it stands for has to be text. -/
def decode? (value : String) : Option String := do
  let text := value.toList
  guard (scheme.isPrefixOf text)
  let bytes ← Base64.decode? (Text.trimBlanks (text.drop scheme.length))
  Utf8.decode? bytes

end HttpWire.Credentials
