import HttpWire.NameMap
/-!
# Headers

The header fields of a message, in the order in which they were first set. A field that is
cleared keeps its place: it reads as absent and is not written, and setting it again revives it
where it was, under its first spelling.
-/

namespace HttpWire

/-- The header fields of a message. A field without a value has been cleared. -/
structure Headers where
  fields : NameMap (Option String) := .empty
  deriving DecidableEq, Repr

namespace Headers

/-- All fields, cleared ones included, in order. -/
def entries (headers : Headers) : List (String × Option String) := headers.fields.entries

/-- The fields that have a value, in order. -/
def live (headers : Headers) : List (String × String) :=
  headers.entries.filterMap fun entry => entry.2.map fun value => (entry.1, value)

/-- The value of a field, unless it is absent or cleared. -/
def get? (headers : Headers) (name : String) : Option String := (headers.fields.get? name).join

/-- Whether a field has a value. -/
def contains (headers : Headers) (name : String) : Bool := (headers.get? name).isSome

/-- Gives a field a value. -/
def insert (headers : Headers) (name value : String) : Headers :=
  ⟨headers.fields.put name (some value)⟩

/-- Clears a field. One that was never set stays unknown. -/
def erase (headers : Headers) (name : String) : Headers :=
  match headers.fields.get? name with
  | some _ => ⟨headers.fields.put name none⟩
  | none => headers

/-- Gives a field a value or clears it. -/
def set (headers : Headers) (name : String) : Option String → Headers
  | some value => headers.insert name value
  | none => headers.erase name

/-- How many fields there are, cleared ones included. -/
def size (headers : Headers) : Nat := headers.entries.length

/-- Whether there are no fields at all, not even cleared ones. -/
def isEmpty (headers : Headers) : Bool := headers.entries.isEmpty

end Headers

end HttpWire
