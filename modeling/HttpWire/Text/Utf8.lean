import HttpWire.Byte
/-!
# UTF-8

Text as bytes and bytes as text. Reading goes piece by piece: a piece is one well-formed
character or one malformed stretch, and every byte belongs to exactly one piece. Strict reading
refuses malformed pieces, lossy reading puts the replacement character in the place of each.
-/

namespace HttpWire.Utf8

/-- The bytes of a text. -/
def encode (text : String) : Bytes := text.toList.flatMap String.utf8EncodeChar

/-! ## Pieces -/

/-- The bounds that the bytes after a lead byte have to keep, one pair for each of them. They
rule out overlong forms, surrogates and values above U+10FFFF. A byte that leads no sequence
of several bytes has none. -/
def continuations (lead : UInt8) : List (UInt8 × UInt8) :=
  if 0xC2 ≤ lead && lead ≤ 0xDF then [(0x80, 0xBF)]
  else if lead == 0xE0 then [(0xA0, 0xBF), (0x80, 0xBF)]
  else if lead == 0xED then [(0x80, 0x9F), (0x80, 0xBF)]
  else if 0xE1 ≤ lead && lead ≤ 0xEF then [(0x80, 0xBF), (0x80, 0xBF)]
  else if lead == 0xF0 then [(0x90, 0xBF), (0x80, 0xBF), (0x80, 0xBF)]
  else if 0xF1 ≤ lead && lead ≤ 0xF3 then [(0x80, 0xBF), (0x80, 0xBF), (0x80, 0xBF)]
  else if lead == 0xF4 then [(0x80, 0x8F), (0x80, 0xBF), (0x80, 0xBF)]
  else []

/-- How many bytes at the front of `bytes` keep the bounds, one after the other. -/
def keptBounds : List (UInt8 × UInt8) → Bytes → Nat
  | (low, high) :: bounds, b :: bytes =>
    if low ≤ b && b ≤ high then keptBounds bounds bytes + 1 else 0
  | _, _ => 0

/-- The length of the malformed piece that starts with `lead`: the lead byte and as much of a
well-formed sequence as follows it. -/
def malformedLength (lead : UInt8) (rest : Bytes) : Nat :=
  keptBounds (continuations lead) rest + 1

/-- The character that `bytes` starts with, if a well-formed one stands there. -/
def leadingChar? (bytes : Bytes) : Option Char := (bytes.take 4).toByteArray.utf8DecodeChar? 0

/-- Reads the pieces of `bytes` and puts them in front of `seen`, last piece first; `none`
stands for a malformed piece. -/
def readPieces (seen : List (Option Char)) : Bytes → List (Option Char)
  | [] => seen
  | b :: rest =>
    match leadingChar? (b :: rest) with
    | some c => readPieces (some c :: seen) (rest.drop (c.utf8Size - 1))
    | none => readPieces (none :: seen) (rest.drop (malformedLength b rest - 1))
termination_by bytes => bytes.length
decreasing_by all_goals simp only [List.length_drop, List.length_cons]; omega

/-- The pieces of `bytes` in order; `none` stands for a malformed piece. -/
def pieces (bytes : Bytes) : List (Option Char) := (readPieces [] bytes).reverse

/-! ## Reading -/

/-- The text whose bytes these are, or `none` if they are not well-formed. -/
def decode? (bytes : Bytes) : Option String := ((pieces bytes).mapM id).map String.ofList

/-- The replacement character U+FFFD. -/
def replacement : Char := '\uFFFD'

/-- The text that the bytes come closest to: each malformed piece becomes one replacement
character. -/
def decodeLossy (bytes : Bytes) : String :=
  String.ofList ((pieces bytes).map (·.getD replacement))

end HttpWire.Utf8
