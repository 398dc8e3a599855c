import HttpWire.Byte
/-!
# Chunk-size lines

The line that opens a chunk: up to sixteen hexadecimal digits, blanks, an extension after a
semicolon, and a carriage return and a line feed. The digits may be missing, which means zero.
-/

namespace HttpWire.Chunked

/-- The longest size that can be written, in digits: sizes are 64-bit numbers. -/
def maxSizeDigits : Nat := 16

/-- What is left of a size line after its digits and blanks, without the extension. -/
def dropExtension : Bytes → Bytes
  | [] => []
  | b :: rest => if b = Byte.semicolon then rest.dropWhile (!Byte.isBreak ·) else b :: rest

/-- The size that a whole line gives, line break included. -/
def sizeOfLine? (line : Bytes) : Option Nat :=
  let digits := line.takeWhile Byte.isHexDigit
  let rest := (line.dropWhile Byte.isHexDigit).dropWhile Byte.isBlank
  if digits.length ≤ maxSizeDigits && dropExtension rest == [Byte.cr, Byte.lf] then
    some (Bytes.hexadecimalValue digits)
  else none

end HttpWire.Chunked
