import HttpWire.Text.Percent
import HttpWire.Url.Basic
import HttpWire.Url.Fields
/-!
# Parsing URLs

A URL from its text: its components, the port that its scheme implies, and its query parameters.
-/

namespace HttpWire.Url

/-! ## Queries -/

/-- Cuts a text at the first of its delimiters, which falls away. -/
def cut (delimiter : Char) (text : List Char) : List Char × Option (List Char) :=
  match text.dropWhile (· != delimiter) with
  | [] => (text, none)
  | _ :: after => (text.takeWhile (· != delimiter), some after)

/-- A parameter of a query as it is written: a key that is not empty, the first equals sign and
the value. -/
def pair? (piece : List Char) : Option (List Char × List Char) :=
  match cut '=' piece with
  | (_, none) => none
  | (key, some value) => if key.isEmpty then none else some (key, value)

/-- The query without one ampersand at its end. -/
def dropLastSeparator (query : List Char) : List Char :=
  if query.getLast? = some '&' then query.dropLast else query

/-- The parameters of a query as they are written, up to the first piece that is none. -/
def queryPairs (query : List Char) : List (List Char × List Char) :=
  ((((dropLastSeparator query).splitOn '&').map pair?).takeWhile Option.isSome).filterMap id

/-- The parameters of a query. A key that comes again keeps its place and takes the later
value. -/
def queryParams (query : List Char) : NameMap String :=
  (queryPairs query).foldl
    (fun params pair =>
      params.put (String.ofList pair.1) (Percent.decode (String.ofList pair.2)))
    .empty

/-! ## URLs -/

/-- The URL of some components. Each of them is what its stretch cuts out of the text, and a port
that is not there is the one that the scheme implies, or 0. -/
def ofFields (text : String) (fields : Fields) : Url :=
  let component (span : Span) : String :=
    String.Pos.Raw.extract text ⟨span.start⟩ ⟨span.stop⟩
  let scheme? := fields.scheme?.map component
  { scheme?
    host? := fields.host?.map component
    rawPort := fields.port?.getD ((scheme?.bind defaultPort?).getD 0)
    path? := fields.path?.map component
    fragment? := fields.fragment?.map component
    userinfo? := fields.userinfo?.map component
    params := (fields.query?.map fun query => queryParams (component query).toList).getD .empty }

/-- The URL of a text. -/
def parse (text : String) : Except Error Url :=
  match Fields.ofBytes? (Utf8.encode text) with
  | some fields => .ok (ofFields text fields)
  | none => .error .invalidUrl

/-- The URL of a text in place of another one, which stays if the text is no URL. -/
def replaceBy (url : Url) (text : String) : Url :=
  match parse text with
  | .ok url => url
  | .error _ => url

end HttpWire.Url
