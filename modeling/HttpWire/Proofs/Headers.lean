import HttpWire.Headers
import HttpWire.Proofs.NameMap
/-!
# Live fields

The fields that have a value are the ones that reading and writing go by. Setting a field changes
what is live under its own name and nothing else, and leaves exactly one live field of that name.
-/

namespace HttpWire.Headers

/-- The entries that have a value, with their values. -/
def liveOf (entries : List (String × Option String)) : List (String × String) :=
  entries.filterMap fun entry => entry.2.map fun value => (entry.1, value)

/-- The live fields of one name. -/
def liveUnder (name : String) (entries : List (String × Option String)) : List (String × String) :=
  (liveOf entries).filter fun field => sameName field.1 name

section
variable {name spelling : String} {value? : Option String} {rest : List (String × Option String)}

theorem mem_liveOf {entries : List (String × Option String)} {field : String × String} :
    field ∈ liveOf entries ↔ (field.1, some field.2) ∈ entries := by
  rw [liveOf, List.mem_filterMap]
  constructor
  · rintro ⟨⟨name, value?⟩, hmem, hmap⟩
    obtain ⟨value, hvalue, rfl⟩ := Option.map_eq_some_iff.mp hmap
    rwa [← hvalue]
  · intro hmem
    exact ⟨_, hmem, rfl⟩

theorem liveOf_map_some (fields : List (String × String)) :
    liveOf (fields.map fun field => (field.1, some field.2)) = fields := by
  rw [liveOf, List.filterMap_map]
  exact List.filterMap_some

theorem liveUnder_cons_of_ne (h : sameName spelling name = false) :
    liveUnder name ((spelling, value?) :: rest) = liveUnder name rest := by
  cases value? with
  | none => rfl
  | some value => exact List.filter_cons_of_neg (by simp [h])

theorem liveUnder_cons_of_same {value : String} (h : sameName spelling name = true) :
    liveUnder name ((spelling, some value) :: rest) = (spelling, value) :: liveUnder name rest :=
  List.filter_cons_of_pos h

theorem liveUnder_cons_none : liveUnder name ((spelling, none) :: rest) = liveUnder name rest := rfl

theorem liveUnder_eq_nil {entries : List (String × Option String)}
    (h : ∀ entry ∈ entries, sameName entry.1 name = false) : liveUnder name entries = [] := by
  induction entries with
  | nil => rfl
  | cons entry rest ih =>
    have hentry : sameName entry.1 name = false := h entry (by simp)
    obtain ⟨spelling, value?⟩ := entry
    rw [liveUnder_cons_of_ne hentry, ih fun entry hmem => h entry (by simp [hmem])]

end

/-! ## Setting a field -/

/-- **Setting a field leaves fields of other names alone.** -/
theorem liveUnder_putEntry_of_ne {name other : String} (value : String)
    (h : sameName name other = false) (entries : List (String × Option String)) :
    liveUnder other (NameMap.putEntry name (some value) entries) = liveUnder other entries := by
  induction entries with
  | nil => exact liveUnder_cons_of_ne h
  | cons entry rest ih =>
    obtain ⟨spelling, value?⟩ := entry
    rw [NameMap.putEntry]
    split
    · next hsame =>
      have hspelling : sameName spelling other = false := by rw [sameName_trans hsame, h]
      rw [liveUnder_cons_of_ne hspelling, liveUnder_cons_of_ne hspelling]
    · cases hspelling : sameName spelling other with
      | false => rw [liveUnder_cons_of_ne hspelling, liveUnder_cons_of_ne hspelling, ih]
      | true =>
        cases value? with
        | none => exact ih
        | some v => rw [liveUnder_cons_of_same hspelling, liveUnder_cons_of_same hspelling, ih]

/-- No name comes again behind an entry of that name. -/
theorem ne_of_pairwise {α : Type} {name : String} {entry : String × α} {rest : List (String × α)}
    (hentry : ∀ other ∈ rest, sameName entry.1 other.1 = false)
    (hsame : sameName entry.1 name = true) : ∀ other ∈ rest, sameName other.1 name = false := by
  intro other hother
  rw [← sameName_congr hsame, sameName_comm]
  exact hentry other hother

/-- **A field that is set is live once**, under the spelling that came first. -/
theorem liveUnder_putEntry (name value : String)
    {entries : List (String × Option String)}
    (h : entries.Pairwise fun a b => sameName a.1 b.1 = false) :
    ∃ spelling, sameName spelling name = true ∧
      liveUnder name (NameMap.putEntry name (some value) entries) = [(spelling, value)] := by
  induction entries with
  | nil =>
    have hsame : sameName name name = true := sameName_iff.mpr rfl
    exact ⟨name, hsame, liveUnder_cons_of_same hsame⟩
  | cons entry rest ih =>
    obtain ⟨hentry, hrest⟩ := List.pairwise_cons.mp h
    rw [NameMap.putEntry]
    split
    · next hsame =>
      refine ⟨entry.1, hsame, ?_⟩
      rw [liveUnder_cons_of_same hsame, liveUnder_eq_nil (ne_of_pairwise hentry hsame)]
    · next hne =>
      obtain ⟨spelling, hsame, hlive⟩ := ih hrest
      refine ⟨spelling, hsame, ?_⟩
      obtain ⟨first, value?⟩ := entry
      rw [liveUnder_cons_of_ne (by simpa using hne), hlive]

/-- How entries change when a field is given a value. It takes the value where it stands, live or
cleared, under the spelling that it has there; a field that is not among them comes last. -/
inductive Given (name value : String) :
    List (String × Option String) → List (String × Option String) → Prop where
  | inPlace {before after : List (String × Option String)} {spelling : String}
      (old? : Option String) (hname : sameName spelling name = true) :
      Given name value (before ++ (spelling, old?) :: after)
        (before ++ (spelling, some value) :: after)
  | last {entries : List (String × Option String)}
      (hnew : ∀ entry ∈ entries, sameName entry.1 name = false) :
      Given name value entries (entries ++ [(name, some value)])

/-- **Inserting a field gives it its value** and changes nothing else. -/
theorem given_insert (headers : Headers) (name value : String) :
    Given name value headers.entries (headers.insert name value).entries := by
  show Given name value headers.entries (NameMap.putEntry name (some value) headers.entries)
  -- Names differ, so the first entry of the name, which takes the value, is the only one.
  by_cases hknown : ∃ entry ∈ headers.entries, sameName entry.1 name = true
  · obtain ⟨⟨spelling, old?⟩, hmem, hname⟩ := hknown
    obtain ⟨before, after, hsplit, hbefore, -⟩ :=
      NameMap.exists_split headers.fields.distinct hmem hname
    have hentries : headers.entries = before ++ (spelling, old?) :: after := hsplit
    rw [hentries, NameMap.putEntry_append hbefore hname]
    exact .inPlace old? hname
  · have hnew : ∀ entry ∈ headers.entries, sameName entry.1 name = false := by
      simpa using hknown
    rw [NameMap.putEntry_of_fresh hnew]
    exact .last hnew

theorem insert_insert (headers : Headers) (name old value : String) :
    (headers.insert name old).insert name value = headers.insert name value :=
  congrArg Headers.mk (NameMap.put_put headers.fields name (some old) (some value))

theorem mem_live_insert {headers : Headers} {name value : String} {field : String × String}
    (h : field ∈ (headers.insert name value).live) :
    field ∈ headers.live ∨ field.2 = value ∧ sameName field.1 name = true := by
  rcases NameMap.mem_putEntry (mem_liveOf.mp h) with hold | ⟨hvalue, hname⟩
  · exact .inl (mem_liveOf.mpr hold)
  · exact .inr ⟨Option.some.inj hvalue, hname⟩

/-! ## Reading a field -/

theorem live_distinct (headers : Headers) :
    headers.live.Pairwise fun a b => sameName a.1 b.1 = false := by
  refine List.Pairwise.filterMap _ ?_ headers.fields.distinct
  rintro ⟨a, value?⟩ ⟨b, other?⟩ hne field hfield other hother
  obtain ⟨_, -, rfl⟩ := Option.map_eq_some_iff.mp hfield
  obtain ⟨_, -, rfl⟩ := Option.map_eq_some_iff.mp hother
  exact hne

theorem join_find?_eq {name : String} {entries : List (String × Option String)}
    (h : entries.Pairwise fun a b => sameName a.1 b.1 = false) :
    ((entries.find? fun entry => sameName entry.1 name).map (·.2)).join =
      (liveUnder name entries).head?.map (·.2) := by
  induction entries with
  | nil => rfl
  | cons entry rest ih =>
    obtain ⟨hentry, hrest⟩ := List.pairwise_cons.mp h
    obtain ⟨spelling, value?⟩ := entry
    cases hsame : sameName spelling name with
    | false =>
      rw [List.find?_cons_of_neg (by simp [hsame]), liveUnder_cons_of_ne hsame]
      exact ih hrest
    | true =>
      have hfind : ((spelling, value?) :: rest).find? (fun entry => sameName entry.1 name) =
          some (spelling, value?) := List.find?_cons_of_pos hsame
      rw [hfind]
      cases value? with
      | none =>
        rw [liveUnder_cons_none, liveUnder_eq_nil (ne_of_pairwise hentry hsame)]
        rfl
      | some value =>
        rw [liveUnder_cons_of_same hsame]
        rfl

/-- **The value of a field** is that of the live field of its name. -/
theorem get?_eq_liveUnder (headers : Headers) (name : String) :
    headers.get? name = (liveUnder name headers.entries).head?.map (·.2) :=
  join_find?_eq headers.fields.distinct

/-- Fields are found under every spelling of their name. -/
theorem liveUnder_congr {name other : String} (h : sameName name other = true)
    (entries : List (String × Option String)) :
    liveUnder name entries = liveUnder other entries := by
  rw [liveUnder, liveUnder]
  exact List.filter_congr fun field _ => sameName_congr h field.1

/-- **A field that is inserted reads as its value**, and every other one as before. -/
theorem get?_insert (headers : Headers) (name value other : String) :
    (headers.insert name value).get? other =
      if sameName name other then some value else headers.get? other := by
  rw [get?_eq_liveUnder]
  show (liveUnder other (NameMap.putEntry name (some value) headers.fields.entries)).head?.map _ = _
  split
  · next hsame =>
    obtain ⟨spelling, -, hlive⟩ := liveUnder_putEntry name value headers.fields.distinct
    rw [← liveUnder_congr hsame, hlive]
    rfl
  · next hne =>
    rw [liveUnder_putEntry_of_ne value (by simpa using hne), get?_eq_liveUnder]
    rfl

/-! ## Filling headers -/

/-- Fields of different names that are inserted into no others are stored as they came. -/
theorem entries_foldl_insert {entries : List (String × String)}
    (h : entries.Pairwise fun a b => sameName a.1 b.1 = false) :
    (entries.foldl (fun headers entry => headers.insert entry.1 entry.2) ({} : Headers)).entries =
      entries.map fun entry => (entry.1, some entry.2) := by
  have hfields : ∀ headers : Headers,
      (entries.foldl (fun headers entry => headers.insert entry.1 entry.2) headers).fields =
        (entries.map fun entry => (entry.1, some entry.2)).foldl
          (fun map entry => map.put entry.1 entry.2) headers.fields := by
    intro headers
    rw [List.foldl_map]
    induction entries generalizing headers with
    | nil => rfl
    | cons entry entries ih => exact ih (List.pairwise_cons.mp h).2 _
  have hpairwise : (entries.map fun entry => (entry.1, some entry.2)).Pairwise
      fun a b => sameName a.1 b.1 = false := List.pairwise_map.mpr h
  rw [Headers.entries, hfields]
  exact NameMap.entries_foldl_put .empty _ hpairwise

end HttpWire.Headers
