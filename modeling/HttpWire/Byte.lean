/-!
# Bytes

The bytes of the wire, the classes of bytes that the message grammar speaks of, and the small
readings of byte strings that several parts of the grammar share: comparison without regard to
letter case, trimmed blanks, comma lists and digits.

Letter case means the case of ASCII letters throughout; bytes from 0x80 on have none.
-/

namespace HttpWire

/-- A stretch of wire data. -/
abbrev Bytes := List UInt8

namespace Byte

/-! ## Single bytes -/

/-- The horizontal tab. -/
abbrev tab : UInt8 := 0x09
/-- The line feed, which ends every line. -/
abbrev lf : UInt8 := 0x0A
/-- The carriage return, which may stand before a line feed and nowhere else. -/
abbrev cr : UInt8 := 0x0D
/-- The space. -/
abbrev space : UInt8 := 0x20
/-- The percent sign. -/
abbrev percent : UInt8 := 0x25
/-- The plus sign. -/
abbrev plus : UInt8 := 0x2B
/-- The comma. -/
abbrev comma : UInt8 := 0x2C
/-- The colon. -/
abbrev colon : UInt8 := 0x3A
/-- The semicolon. -/
abbrev semicolon : UInt8 := 0x3B

/-! ## Classes of bytes -/

/-- An ASCII decimal digit. -/
def isDigit (b : UInt8) : Bool := 0x30 ≤ b && b ≤ 0x39

/-- An ASCII capital letter. -/
def isUpper (b : UInt8) : Bool := 0x41 ≤ b && b ≤ 0x5A

/-- An ASCII small letter. -/
def isLower (b : UInt8) : Bool := 0x61 ≤ b && b ≤ 0x7A

/-- An ASCII letter or digit. -/
def isAlphanumeric (b : UInt8) : Bool := isDigit b || isUpper b || isLower b

/-- A blank: a space or a tab. -/
def isBlank (b : UInt8) : Bool := b == space || b == tab

/-- One of the two bytes of which line breaks are made. -/
def isBreak (b : UInt8) : Bool := b == cr || b == lf

/-- A token byte, of which methods and field names are made: a letter, a digit or one of
the fifteen marks ``! # $ % & ' * + - . ^ _ ` | ~``. -/
def isToken (b : UInt8) : Bool :=
  isAlphanumeric b ||
    [0x21, 0x23, 0x24, 0x25, 0x26, 0x27, 0x2A, 0x2B, 0x2D, 0x2E, 0x5E, 0x5F, 0x60, 0x7C,
      0x7E].contains b

/-- A byte of a request target: anything above the space but the delete character. -/
def isTarget (b : UInt8) : Bool := 0x21 ≤ b && b != 0x7F

/-- A byte of running text, as field values and reason phrases hold it: a target byte,
a space or a tab. -/
def isText (b : UInt8) : Bool := isTarget b || isBlank b

/-! ## Digits -/

/-- The value of a hexadecimal digit of either case. -/
def hexValue? (b : UInt8) : Option Nat :=
  if isDigit b then some (b.toNat - 0x30)
  else if 0x41 ≤ b && b ≤ 0x46 then some (b.toNat - 0x37)
  else if 0x61 ≤ b && b ≤ 0x66 then some (b.toNat - 0x57)
  else none

/-- A hexadecimal digit of either case. -/
def isHexDigit (b : UInt8) : Bool := (hexValue? b).isSome

/-- The small letter for a capital one; every other byte is left alone. -/
def toLower (b : UInt8) : UInt8 := if isUpper b then b + 0x20 else b

end Byte

/-! ## Readings of byte strings -/

namespace Bytes

/-- The bytes with capital letters made small: two byte strings are equal up to letter case
when these are equal. -/
def foldCase (bytes : Bytes) : Bytes := bytes.map Byte.toLower

/-- Equality up to letter case. -/
def sameLetters (a b : Bytes) : Bool := a.foldCase == b.foldCase

/-- The bytes without the blanks at their end. -/
def trimEnd (bytes : Bytes) : Bytes := (bytes.reverse.dropWhile Byte.isBlank).reverse

/-- The bytes without the blanks at either end. -/
def trim (bytes : Bytes) : Bytes := trimEnd (bytes.dropWhile Byte.isBlank)

/-- The elements of a comma-separated list, each without the blanks around it. An empty
value is a list of one empty element. -/
def listElements (value : Bytes) : List Bytes := (value.splitOn Byte.comma).map trim

/-- The number that a string of decimal digits denotes. -/
def decimalValue (digits : Bytes) : Nat :=
  digits.foldl (fun n d => 10 * n + (d.toNat - 0x30)) 0

/-- The number that a string of hexadecimal digits denotes; no digits denote zero. -/
def hexadecimalValue (digits : Bytes) : Nat :=
  digits.foldl (fun n d => 16 * n + (Byte.hexValue? d).getD 0) 0

end Bytes

end HttpWire
