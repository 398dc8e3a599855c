import HttpWire.Error
import HttpWire.NameMap
/-!
# URLs

A URL with its components apart and its query parameters decoded, the defaults of the components
that are not set, and the text that it is written as.
-/

namespace HttpWire

/-- A URL. The port 0 stands for none. -/
structure Url where
  scheme? : Option String := none
  host? : Option String := none
  rawPort : UInt16 := 0
  path? : Option String := none
  fragment? : Option String := none
  /-- The user and password for basic authentication, which the text does not show. -/
  userinfo? : Option String := none
  /-- The query parameters; their keys are as written and their values decoded. -/
  params : NameMap String := .empty
  deriving DecidableEq, Repr

namespace Url

/-! ## Defaults -/

/-- The port that belongs to a scheme. -/
def defaultPort? (scheme : String) : Option UInt16 :=
  if sameName scheme "http" then some 80
  else if sameName scheme "https" then some 443
  else none

/-- The scheme, `http` if none is set. -/
def scheme (url : Url) : String := url.scheme?.getD "http"

/-- The port, 80 if none is set, whatever the scheme is. -/
def port (url : Url) : UInt16 := if url.rawPort = 0 then 80 else url.rawPort

/-- The value of a query parameter. -/
def param? (url : Url) (key : String) : Option String := url.params.get? key

/-- Sets a query parameter. Neither the key nor the value may be empty. -/
def setParam (url : Url) (key value : String) : Except Error Url :=
  if key.isEmpty || value.isEmpty then .error .emptyParam
  else .ok { url with params := url.params.put key value }

/-! ## Text -/

/-- A key and a value as they are written. -/
def pairText (pair : List Char × List Char) : List Char := pair.1 ++ '=' :: pair.2

/-- Pairs with ampersands between them. -/
def pairsText (pairs : List (List Char × List Char)) : List Char :=
  List.intercalate ['&'] (pairs.map pairText)

/-- The pairs that some parameters are written as. Values are written by `writeValue`. -/
def writtenPairs (writeValue : String → String) (params : List (String × String)) :
    List (List Char × List Char) :=
  params.map fun param => (param.1.toList, (writeValue param.2).toList)

/-- A query: nothing if there are no parameters, otherwise a question mark and the parameters. -/
def queryText (writeValue : String → String) (params : NameMap String) : List Char :=
  match params.entries with
  | [] => []
  | entries => '?' :: pairsText (writtenPairs writeValue entries)

/-- A fragment with its number sign, if there is one. -/
def fragmentText (fragment? : Option String) : List Char :=
  match fragment? with
  | none => []
  | some fragment => '#' :: fragment.toList

/-- A host, in brackets if a colon in it shows that it is an address literal. -/
def hostText (host : String) : List Char :=
  if host.toList.contains ':' then '[' :: host.toList ++ [']'] else host.toList

/-- A port with its colon, unless none is set or the scheme has it by default. -/
def portText (scheme : String) (port : UInt16) : List Char :=
  if port = 0 || defaultPort? scheme == some port then [] else ':' :: Nat.toDigits 10 port.toNat

/-- The text of a URL. Query values are written as they are stored. -/
def text (url : Url) : String :=
  String.ofList
    (url.scheme.toList ++ "://".toList ++ hostText (url.host?.getD "") ++
      portText url.scheme url.rawPort ++ (url.path?.getD "").toList ++ queryText id url.params ++
      fragmentText url.fragment?)

end Url

end HttpWire
