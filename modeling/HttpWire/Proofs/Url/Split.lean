import HttpWire.Url.Parse
/-!
# The parts of a URL text

A URL text falls apart without loss. It is an asterisk, or a path with a query and a fragment, or
these after a scheme and an authority. Parsing finds in the bytes of a text where its components
are; proofs speak of the components themselves. So a text is split here by its characters, into
parts that can be joined again, and the URL of the parts is what parsing is shown to give.
-/

namespace HttpWire.Url

/-! ## Classes of characters -/

/-- A character that a URL may hold at all: neither a control character of ASCII nor a space. -/
def isUrlChar (c : Char) : Bool := ' ' < c && c != '\x7F'

/-- A character of a host name. -/
def isHostChar (c : Char) : Bool := c.isAlphanum || c == '.' || c == '-' || c == '_' || c == '~'

/-- A character of an address literal. -/
def isLiteralChar (c : Char) : Bool :=
  c.isDigit || ('a' ≤ c && c ≤ 'f') || ('A' ≤ c && c ≤ 'F') || c == ':' || c == '.'

/-- A character of the user information. -/
def isUserinfoChar (c : Char) : Bool := ['/', '?', '#', '@', '[', ']'].all (· != c)

/-- A character that ends the authority. -/
def endsAuthority (c : Char) : Bool := c == '/' || c == '?' || c == '#'

/-! ## Parts -/

/-- A host: a name, or an address literal, which is written in brackets. -/
inductive Host where
  | name (chars : List Char)
  | literal (chars : List Char)
  deriving DecidableEq, Repr

/-- What comes before the path of a URL in absolute form. The port is a string of digits. -/
structure Origin where
  scheme : List Char
  userinfo? : Option (List Char)
  host : Host
  port? : Option (List Char)
  deriving DecidableEq, Repr

/-- The path, which may be empty, the query and the fragment. -/
structure Tail where
  path : List Char
  query? : Option (List Char)
  fragment? : Option (List Char)
  deriving DecidableEq, Repr

/-- The parts of a URL. Only the absolute form has an origin. -/
structure Parts where
  origin? : Option Origin
  tail : Tail
  deriving DecidableEq, Repr

/-! ## Joining -/

/-- An optional part after its delimiter. -/
def delimited (delimiter : Char) : Option (List Char) → List Char
  | none => []
  | some part => delimiter :: part

/-- The text of a host. -/
def Host.text : Host → List Char
  | .name chars => chars
  | .literal chars => '[' :: chars ++ [']']

/-- The text of an origin. -/
def Origin.text (origin : Origin) : List Char :=
  origin.scheme ++ [':', '/', '/'] ++
    (match origin.userinfo? with
      | none => []
      | some userinfo => userinfo ++ ['@']) ++
    origin.host.text ++ delimited ':' origin.port?

/-- The text of a tail. -/
def Tail.text (tail : Tail) : List Char :=
  tail.path ++ delimited '?' tail.query? ++ delimited '#' tail.fragment?

/-- The text of a URL. -/
def Parts.text (parts : Parts) : List Char :=
  (match parts.origin? with
    | none => []
    | some origin => origin.text) ++ parts.tail.text

/-! ## Splitting -/

/-- The largest port. -/
def maxPort : Nat := 65535

/-- The number of a port: one to five digits, no number above 65535. -/
def portNumber? (digits : List Char) : Option UInt16 :=
  if !digits.isEmpty && digits.length ≤ 5 && digits.all Char.isDigit &&
      Nat.ofDigitChars 10 digits 0 ≤ maxPort then
    some (Nat.ofDigitChars 10 digits 0).toUInt16
  else none

/-- Whether an optional port is one. -/
def isPort (port? : Option (List Char)) : Bool := port?.all fun port => (portNumber? port).isSome

/-- Splits an address literal, of which the opening bracket is taken away, and a port. -/
def splitLiteral? (text : List Char) : Option (Host × Option (List Char)) :=
  match cut ']' text with
  | (_, none) => none
  | (literal, some after) =>
    if literal.isEmpty || !literal.all isLiteralChar then none
    else
      match after with
      | [] => some (.literal literal, none)
      | c :: port => if c = ':' then some (.literal literal, some port) else none

/-- Splits a host name and a port. -/
def splitName? (text : List Char) : Option (Host × Option (List Char)) :=
  let (name, port?) := cut ':' text
  if name.isEmpty || !name.all isHostChar then none else some (.name name, port?)

/-- Splits a host and a port. -/
def splitHost? (text : List Char) : Option (Host × Option (List Char)) :=
  let split? := if text.head? = some '[' then splitLiteral? text.tail else splitName? text
  split?.filter fun split => isPort split.2

/-- Splits an authority into user information, host and port. -/
def splitAuthority? (text : List Char) :
    Option (Option (List Char) × Host × Option (List Char)) :=
  match cut '@' text with
  | (text, none) => (splitHost? text).map fun split => (none, split)
  | (userinfo, some text) =>
    if text.contains '@' || !userinfo.all isUserinfoChar then none
    else (splitHost? text).map fun split => (some userinfo, split)

/-- Splits path, query and fragment. -/
def splitTail (text : List Char) : Tail :=
  let (text, fragment?) := cut '#' text
  let (path, query?) := cut '?' text
  { path, query?, fragment? }

/-- Splits a URL in absolute form. -/
def splitAbsolute? (text : List Char) : Option Parts :=
  let scheme := text.takeWhile Char.isAlpha
  match text.dropWhile Char.isAlpha with
  | ':' :: '/' :: '/' :: rest =>
    if scheme.isEmpty then none
    else
      (splitAuthority? (rest.takeWhile (!endsAuthority ·))).map fun (userinfo?, host, port?) =>
        { origin? := some { scheme, userinfo?, host, port? }
          tail := splitTail (rest.dropWhile (!endsAuthority ·)) }
  | _ => none

/-- Splits a URL text into its parts. -/
def Parts.ofText? (text : List Char) : Option Parts :=
  if text.isEmpty || !text.all isUrlChar then none
  else if text = ['*'] then some { origin? := none, tail := ⟨text, none, none⟩ }
  else if text.head? = some '/' then some { origin? := none, tail := splitTail text }
  else splitAbsolute? text

/-! ## URLs -/

/-- The host as it is stored, without brackets. -/
def Host.chars : Host → List Char
  | .name chars => chars
  | .literal chars => chars

/-- The port that an origin gives or its scheme implies; 0 if there is neither. -/
def Origin.port (origin : Origin) : UInt16 :=
  match origin.port? with
  | some digits => (portNumber? digits).getD 0
  | none => (defaultPort? (String.ofList origin.scheme)).getD 0

/-- The URL of some parts. An empty path counts as none. -/
def ofParts (parts : Parts) : Url where
  scheme? := parts.origin?.map fun origin => String.ofList origin.scheme
  host? := parts.origin?.map fun origin => String.ofList origin.host.chars
  rawPort := (parts.origin?.map Origin.port).getD 0
  path? := if parts.tail.path.isEmpty then none else some (String.ofList parts.tail.path)
  fragment? := parts.tail.fragment?.map String.ofList
  userinfo? := (parts.origin?.bind Origin.userinfo?).map String.ofList
  params := (parts.tail.query?.map queryParams).getD .empty

end HttpWire.Url
