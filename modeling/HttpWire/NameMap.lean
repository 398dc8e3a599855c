/-!
# Ordered maps keyed by names

Field names and query keys are the same up to the case of ASCII letters. A map keyed by such
names keeps its entries in the order in which their names first came, each under the spelling
that came first.
-/

namespace HttpWire

/-- A name with its capital letters made small. -/
def foldName (name : String) : List Char := name.toList.map Char.toLower

/-- Whether two names are the same up to the case of ASCII letters. -/
def sameName (a b : String) : Bool := foldName a == foldName b

theorem sameName_iff {a b : String} : sameName a b = true ↔ foldName a = foldName b := by
  simp [sameName]

/-- An ordered map from names to values. No two of its entries have the same name. -/
structure NameMap (α : Type) where
  entries : List (String × α) := []
  distinct : entries.Pairwise (fun a b => sameName a.1 b.1 = false) := by exact .nil
  deriving DecidableEq, Repr

namespace NameMap

variable {α : Type}

/-- The map without entries. -/
def empty : NameMap α := {}

/-- The value under a name. -/
def get? (map : NameMap α) (name : String) : Option α :=
  (map.entries.find? fun entry => sameName entry.1 name).map (·.2)

/-! ## Putting values -/

/-- Entries with the value under a name replaced in its place, or a new entry at the end. -/
def putEntry (name : String) (value : α) : List (String × α) → List (String × α)
  | [] => [(name, value)]
  | entry :: rest =>
    if sameName entry.1 name then (entry.1, value) :: rest else entry :: putEntry name value rest

/-- Putting a value brings no names into the entries but the one it is put under. -/
theorem name_of_mem_putEntry {name : String} {value : α} {entries : List (String × α)}
    {entry : String × α} (h : entry ∈ putEntry name value entries) :
    entry.1 = name ∨ ∃ old ∈ entries, old.1 = entry.1 := by
  induction entries with
  | nil =>
    rw [putEntry, List.mem_singleton] at h
    exact .inl (by rw [h])
  | cons first rest ih =>
    rw [putEntry] at h
    split at h
    · rcases List.mem_cons.1 h with h | h
      · exact .inr ⟨first, List.mem_cons_self, by rw [h]⟩
      · exact .inr ⟨entry, List.mem_cons_of_mem _ h, rfl⟩
    · rcases List.mem_cons.1 h with h | h
      · exact .inr ⟨first, List.mem_cons_self, by rw [h]⟩
      · obtain h | ⟨old, hold, heq⟩ := ih h
        · exact .inl h
        · exact .inr ⟨old, List.mem_cons_of_mem _ hold, heq⟩

theorem putEntry_distinct {name : String} {value : α} {entries : List (String × α)}
    (h : entries.Pairwise (fun a b => sameName a.1 b.1 = false)) :
    (putEntry name value entries).Pairwise (fun a b => sameName a.1 b.1 = false) := by
  induction entries with
  | nil => exact List.pairwise_singleton _ _
  | cons first rest ih =>
    obtain ⟨hfirst, hrest⟩ := List.pairwise_cons.1 h
    rw [putEntry]
    split
    · exact List.pairwise_cons.2 ⟨hfirst, hrest⟩
    · next hname =>
      refine List.pairwise_cons.2 ⟨fun entry hentry => ?_, ih hrest⟩
      obtain heq | ⟨old, hold, heq⟩ := name_of_mem_putEntry hentry
      · rw [heq]
        exact Bool.eq_false_iff.2 hname
      · rw [← heq]
        exact hfirst old hold

/-- Puts a value under a name. -/
def put (map : NameMap α) (name : String) (value : α) : NameMap α :=
  ⟨putEntry name value map.entries, putEntry_distinct map.distinct⟩

end NameMap

end HttpWire
