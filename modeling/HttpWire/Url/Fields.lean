import HttpWire.Byte
/-!
# Where the components of a URL are

A URL text is split without copying: what is found are the stretches of its bytes in which the
components are. A text is an asterisk, or a path with a query and a fragment, or these after a
scheme and an authority. No component is decoded here.
-/

namespace HttpWire.Url

/-! ## Classes of bytes -/

/-- A byte of a host name. -/
def isHostByte (b : UInt8) : Bool :=
  Byte.isAlphanumeric b || b == 0x2E || b == 0x2D || b == 0x5F || b == 0x7E

/-- A byte of an address literal. -/
def isLiteralByte (b : UInt8) : Bool := Byte.isHexDigit b || b == Byte.colon || b == 0x2E

/-- A byte of the user information: none of `/ ? # @ [ ]`. -/
def isUserinfoByte (b : UInt8) : Bool :=
  ([0x2F, 0x3F, 0x23, 0x40, 0x5B, 0x5D] : Bytes).all (· != b)

/-- A byte that ends the authority: a slash, a question mark or a number sign. -/
def endsOrigin (b : UInt8) : Bool := b == 0x2F || b == 0x3F || b == 0x23

/-! ## Stretches -/

/-- A stretch of the bytes of a text. -/
structure Span where
  start : Nat
  stop : Nat
  deriving DecidableEq, Repr

/-- The bytes in a stretch. -/
def Span.slice (span : Span) (bytes : Bytes) : Bytes := (bytes.take span.stop).drop span.start

/-- Where in a stretch the first byte of a class is. -/
def Span.position? (span : Span) (bytes : Bytes) (inClass : UInt8 → Bool) : Option Nat :=
  ((span.slice bytes).findIdx? inClass).map (span.start + ·)

/-- Where the components of a URL are in its text. Of the port there is the number. -/
structure Fields where
  scheme? : Option Span := none
  userinfo? : Option Span := none
  host? : Option Span := none
  port? : Option UInt16 := none
  path? : Option Span := none
  query? : Option Span := none
  fragment? : Option Span := none
  deriving DecidableEq, Repr

namespace Fields

/-! ## Splitting -/

/-- The number of a port: one to five digits, no number above 65535. -/
def portOf? (digits : Bytes) : Option UInt16 :=
  if digits.isEmpty || 5 < digits.length || !digits.all Byte.isDigit then none
  else if digits.decimalValue < UInt16.size then some digits.decimalValue.toUInt16
  else none

/-- The digits of a port behind an address literal, where there may be nothing else. -/
def digitsBehindLiteral? : Bytes → Option (Option Bytes)
  | [] => some none
  | b :: digits => if b == Byte.colon then some (some digits) else none

/-- Finds an address literal, which is in brackets, and the digits of a port behind it. -/
def literal? (bytes : Bytes) (authority : Span) : Option (Span × Option Bytes) := do
  let text := authority.slice bytes
  let close ← text.findIdx? (· == 0x5D)
  let literal := (text.take close).drop 1
  if literal.isEmpty || !literal.all isLiteralByte then none
  else
    (digitsBehindLiteral? (text.drop (close + 1))).map fun digits? =>
      (⟨authority.start + 1, authority.start + close⟩, digits?)

/-- Finds a host name and the digits of a port behind it. -/
def name? (bytes : Bytes) (authority : Span) : Option (Span × Option Bytes) :=
  let text := authority.slice bytes
  let colon? := text.findIdx? (· == Byte.colon)
  let length := colon?.getD text.length
  let name := text.take length
  if name.isEmpty || !name.all isHostByte then none
  else
    some (⟨authority.start, authority.start + length⟩,
      colon?.map fun colon => text.drop (colon + 1))

/-- Finds a host, of which the opening bracket shows that it is an address literal, and the digits
of a port behind it. -/
def hostAndDigits? (bytes : Bytes) (authority : Span) : Option (Span × Option Bytes) :=
  if (authority.slice bytes).head? == some 0x5B then literal? bytes authority
  else name? bytes authority

/-- Adds the host and the port. -/
def addHost? (fields : Fields) (bytes : Bytes) (authority : Span) : Option Fields := do
  let (host, digits?) ← hostAndDigits? bytes authority
  match digits? with
  | none => some { fields with host? := some host }
  | some digits =>
    let port ← portOf? digits
    some { fields with host? := some host, port? := some port }

/-- Adds the user information, the host and the port. -/
def addAuthority? (fields : Fields) (bytes : Bytes) (authority : Span) : Option Fields :=
  let text := authority.slice bytes
  match text.count 0x40 with
  | 0 => fields.addHost? bytes authority
  | 1 => do
    let length ← text.findIdx? (· == 0x40)
    if (text.take length).all isUserinfoByte then
      let userinfo : Span := ⟨authority.start, authority.start + length⟩
      { fields with userinfo? := some userinfo }.addHost? bytes ⟨userinfo.stop + 1, authority.stop⟩
    else none
  | _ => none

/-- Adds the path, the query and the fragment, of which the first begins at `start`. An empty path
is none. -/
def addTail (fields : Fields) (bytes : Bytes) (start : Nat) : Fields :=
  let fragment? := Span.position? ⟨start, bytes.length⟩ bytes (· == 0x23)
  let stop := fragment?.getD bytes.length
  let query? := Span.position? ⟨start, stop⟩ bytes (· == 0x3F)
  let pathStop := query?.getD stop
  { fields with
    path? := if start < pathStop then some ⟨start, pathStop⟩ else none
    query? := query?.map fun query => ⟨query + 1, stop⟩
    fragment? := fragment?.map fun fragment => ⟨fragment + 1, bytes.length⟩ }

/-- Adds an authority, which begins at `start`, and a tail behind it. -/
def addRest? (fields : Fields) (bytes : Bytes) (start : Nat) : Option Fields :=
  let stop := (Span.position? ⟨start, bytes.length⟩ bytes endsOrigin).getD bytes.length
  (fields.addAuthority? bytes ⟨start, stop⟩).map fun fields => fields.addTail bytes stop

/-- What stands behind a scheme: a colon and two slashes. -/
def schemeMark : Bytes := [Byte.colon, 0x2F, 0x2F]

/-- Splits a URL in absolute form. -/
def ofAbsolute? (bytes : Bytes) : Option Fields := do
  let stop ← bytes.findIdx? fun b => !(Byte.isUpper b || Byte.isLower b)
  if stop == 0 || !schemeMark.isPrefixOf (bytes.drop stop) then none
  else addRest? { scheme? := some ⟨0, stop⟩ } bytes (stop + schemeMark.length)

/-- Splits the bytes of a URL text. -/
def ofBytes? (bytes : Bytes) : Option Fields :=
  if bytes.isEmpty || bytes.any (fun b => b ≤ Byte.space || b == 0x7F) then none
  else if bytes == [0x2A] then some { path? := some ⟨0, 1⟩ }
  else if bytes.head? == some 0x2F then some (addTail {} bytes 0)
  else ofAbsolute? bytes

end Fields

end HttpWire.Url
