import HttpWire.Byte
/-!
# The end of a head

A head ends at its first empty line: a line feed and right after it another line break. The
search for it needs no grammar, so a reader can wait for the empty line and parse the head once.
Of the bytes searched before only the last three matter, since no empty line is longer.
-/

namespace HttpWire.Head

/-- Whether an empty line, with the line feed before it, starts right here. -/
def startsWithBlankLine (bytes : Bytes) : Bool :=
  [Byte.lf, Byte.lf].isPrefixOf bytes || [Byte.lf, Byte.cr, Byte.lf].isPrefixOf bytes

/-- Whether `bytes` holds an empty line that ends a head. -/
def hasEnding : Bytes → Bool
  | [] => false
  | b :: rest => startsWithBlankLine (b :: rest) || hasEnding rest

/-- How many bytes of what was searched before can belong to an empty line that ends later. -/
def overlap : Nat := 3

/-- Whether `more` completes an empty line, after `before` in which there is none. -/
def completesEnding (before : Array UInt8) (more : Bytes) : Bool :=
  hasEnding ((before.extract (before.size - overlap) before.size).toList ++ more)

end HttpWire.Head
