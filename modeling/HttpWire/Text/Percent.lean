import HttpWire.Text.Utf8
/-!
# Percent coding of query values

In a query a value is written with its unreserved bytes as they are, its spaces as plus signs
and every other byte as a percent sign and two capital hexadecimal digits. Reading turns plus
signs back into spaces first and then undoes the escapes; a percent sign that starts no escape
stands for itself.
-/

namespace HttpWire.Percent

/-! ## Writing -/

/-- The bytes that are written as they are: ASCII letters, digits and `- . _ ~`. -/
def isUnreserved (b : UInt8) : Bool :=
  Byte.isAlphanumeric b || b == 0x2D || b == 0x2E || b == 0x5F || b == 0x7E

/-- The capital hexadecimal digit for a value below 16. -/
def hexDigit (value : UInt8) : UInt8 := if value < 10 then 0x30 + value else 0x37 + value

/-- How one byte of a value is written. -/
def escape (b : UInt8) : Bytes :=
  if isUnreserved b then [b]
  else if b == Byte.space then [Byte.plus]
  else [Byte.percent, hexDigit (b / 16), hexDigit (b % 16)]

/-- How the bytes of a value are written. -/
def escapeAll (value : Bytes) : Bytes := value.flatMap escape

/-- The written form of a value. -/
def encode (value : String) : String :=
  String.ofList ((escapeAll (Utf8.encode value)).map fun b => Char.ofNat b.toNat)

/-! ## Reading -/

/-- The byte that a percent sign and two bytes after it stand for, if both are hexadecimal
digits. -/
def escaped? (high low : UInt8) : Option UInt8 := do
  let h ← Byte.hexValue? high
  let l ← Byte.hexValue? low
  some (16 * h + l).toUInt8

/-- Undoes the escapes in some bytes and puts the result in front of `done`, last byte first. -/
def readEscapes (done : Bytes) : Bytes → Bytes
  | [] => done
  | [a] => a :: done
  | [a, b] => b :: a :: done
  | a :: b :: c :: rest =>
    if a == Byte.percent then
      match escaped? b c with
      | some value => readEscapes (value :: done) rest
      | none => readEscapes (a :: done) (b :: c :: rest)
    else readEscapes (a :: done) (b :: c :: rest)

/-- The bytes with their escapes undone. -/
def unescapeAll (bytes : Bytes) : Bytes := (readEscapes [] bytes).reverse

/-- The bytes with every plus sign turned into a space. -/
def plusToSpace (bytes : Bytes) : Bytes :=
  bytes.map fun b => if b == Byte.plus then Byte.space else b

/-- The value that a written form stands for. Bytes that are not well-formed text in the end
are replaced. -/
def decode (written : String) : String :=
  Utf8.decodeLossy (unescapeAll (plusToSpace (Utf8.encode written)))

end HttpWire.Percent
