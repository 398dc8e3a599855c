import HttpWire.NameMap
import HttpWire.Proofs.Text.Utf8
import Mathlib.Data.List.Induction
/-!
# Names

Names are told apart on the wire as they are in a map: by their bytes without letter case. A map
that is filled from the entries of another one, in order, ends up with the same entries.
-/

namespace HttpWire

/-! ## Letter case -/

theorem foldCase_encodeChar (c : Char) :
    (String.utf8EncodeChar c).map Byte.toLower = String.utf8EncodeChar c.toLower := by
  by_cases hascii : c.toNat < 0x80
  · revert hascii
    refine Utf8.forall_ascii (p := fun c => (String.utf8EncodeChar c).map Byte.toLower =
      String.utf8EncodeChar c.toLower) ?_
    decide
  · have hsame : c.toLower = c := by
      unfold Char.toLower
      rw [dif_neg]
      rintro ⟨-, hle⟩
      exact hascii (Nat.lt_of_le_of_lt hle (by decide))
    have hmap : ∀ b ∈ String.utf8EncodeChar c, Byte.toLower b = id b := fun b hb =>
      Byte.toLower_of_high (Utf8.le_of_mem_encodeChar (Nat.not_lt.mp hascii) hb)
    rw [hsame, List.map_congr_left hmap, List.map_id]

theorem foldCase_encode (name : String) :
    (Utf8.encode name).foldCase = (foldName name).flatMap String.utf8EncodeChar := by
  rw [Bytes.foldCase, Utf8.encode, foldName, List.map_flatMap, List.flatMap_map]
  exact congrArg (List.flatMap · name.toList) (funext foldCase_encodeChar)

/-- **The bytes of two names agree up to letter case exactly if the names do.** -/
theorem sameLetters_encode (a b : String) :
    (Utf8.encode a).sameLetters (Utf8.encode b) = sameName a b := by
  rw [Bytes.sameLetters, foldCase_encode, foldCase_encode, sameName, Bool.eq_iff_iff, beq_iff_eq,
    beq_iff_eq]
  constructor
  · intro h
    have hofList : ∀ chars : List Char,
        chars.flatMap String.utf8EncodeChar = Utf8.encode (String.ofList chars) := by
      intro chars
      rw [Utf8.encode, String.toList_ofList]
    rw [hofList, hofList] at h
    exact String.ofList_injective (Utf8.encode_injective h)
  · intro h
    rw [h]

theorem sameName_comm (a b : String) : sameName a b = sameName b a := by
  rw [sameName, sameName, Bool.beq_comm]

theorem sameName_trans {a b c : String} (h : sameName a b = true) :
    sameName a c = sameName b c := by
  rw [sameName_iff] at h
  rw [sameName, sameName, h]

theorem sameName_congr {a b : String} (h : sameName a b = true) (c : String) :
    sameName c a = sameName c b := by
  rw [sameName_comm c a, sameName_comm c b, sameName_trans h]

/-! ## First spellings -/

/-- Each name once, where it first comes and in the spelling that comes first. -/
def firstSpellings (names : List String) : List String := names.eraseDupsBy sameName

theorem loop_concat (names : List String) (name : String) (seen : List String) :
    List.eraseDupsBy.loop sameName (names ++ [name]) seen =
      if seen.any (sameName name) || names.any (sameName name) then
        List.eraseDupsBy.loop sameName names seen
      else List.eraseDupsBy.loop sameName names seen ++ [name] := by
  induction names generalizing seen with
  | nil =>
    rw [List.nil_append, List.any_nil, Bool.or_false]
    cases hseen : seen.any (sameName name) with
    | true => simp only [List.eraseDupsBy.loop, hseen, if_true]
    | false => simp only [List.eraseDupsBy.loop, hseen, Bool.false_eq_true, if_false,
        List.reverse_cons]
  | cons first names ih =>
    rw [List.cons_append, List.eraseDupsBy.loop, List.eraseDupsBy.loop]
    cases hfirst : seen.any (sameName first) with
    | true =>
      -- A name that is dropped is one of those seen, so it makes no difference to later ones.
      have hseen : sameName name first = true → seen.any (sameName name) = true := by
        intro hsame
        rw [← hfirst]
        exact congrArg seen.any (funext fun _ => sameName_trans hsame)
      cases hname : sameName name first with
      | true => simp [ih, hname, hseen hname]
      | false => simp [ih, hname]
    | false => simp [ih, Bool.or_assoc, Bool.or_left_comm]

/-- **A further name** is left out if it has come before, and otherwise it comes last. -/
theorem firstSpellings_concat (names : List String) (name : String) :
    firstSpellings (names ++ [name]) =
      if names.any (sameName · name) then firstSpellings names
      else firstSpellings names ++ [name] := by
  have hany : names.any (sameName · name) = names.any (sameName name) :=
    congrArg names.any (funext fun other => sameName_comm other name)
  rw [hany]
  exact loop_concat names name []

/-- No name is lost but for its spelling. -/
theorem any_firstSpellings (names : List String) (name : String) :
    (firstSpellings names).any (sameName · name) = names.any (sameName · name) := by
  induction names using List.reverseRecOn with
  | nil => rfl
  | append_singleton names last ih =>
    have hsingle : [last].any (sameName · name) = sameName last name := Bool.or_false _
    rw [firstSpellings_concat, List.any_append, hsingle]
    split
    · next hlast =>
      rw [ih]
      cases hsame : sameName last name with
      | false => rw [Bool.or_false]
      | true =>
        rw [Bool.or_true, ← hlast]
        exact congrArg names.any (funext fun other => (sameName_congr hsame other).symm)
    · rw [List.any_append, ih, hsingle]

/-! ## Filling a map -/

namespace NameMap

variable {α : Type}

theorem putEntry_of_fresh {name : String} {value : α} {entries : List (String × α)}
    (h : ∀ entry ∈ entries, sameName entry.1 name = false) :
    putEntry name value entries = entries ++ [(name, value)] := by
  induction entries with
  | nil => rfl
  | cons entry rest ih =>
    have hentry := h entry (by simp)
    rw [putEntry, if_neg (by simp [hentry]), ih fun e he => h e (by simp [he])]
    rfl

theorem mem_putEntry {name : String} {value : α} {entries : List (String × α)}
    {entry : String × α} (h : entry ∈ putEntry name value entries) :
    entry ∈ entries ∨ entry.2 = value ∧ sameName entry.1 name = true := by
  induction entries with
  | nil =>
    rw [putEntry, List.mem_singleton] at h
    subst h
    exact .inr ⟨rfl, sameName_iff.mpr rfl⟩
  | cons first rest ih =>
    rw [putEntry] at h
    split at h
    · next hsame =>
      rcases List.mem_cons.mp h with rfl | hmem
      · exact .inr ⟨rfl, hsame⟩
      · exact .inl (by simp [hmem])
    · rcases List.mem_cons.mp h with rfl | hmem
      · exact .inl (by simp)
      · exact (ih hmem).imp_left fun hold => by simp [hold]

/-- **Putting entries of different names one after another** keeps them as they are. -/
theorem entries_foldl_put (map : NameMap α) (entries : List (String × α))
    (h : (map.entries ++ entries).Pairwise fun a b => sameName a.1 b.1 = false) :
    (entries.foldl (fun map entry => map.put entry.1 entry.2) map).entries =
      map.entries ++ entries := by
  induction entries generalizing map with
  | nil => simp
  | cons entry rest ih =>
    have hput : (map.put entry.1 entry.2).entries = map.entries ++ [entry] :=
      putEntry_of_fresh fun old hold =>
        (List.pairwise_append.mp h).2.2 old hold entry (by simp)
    have hrest : ((map.put entry.1 entry.2).entries ++ rest).Pairwise
        fun a b => sameName a.1 b.1 = false := by
      rw [hput, List.append_assoc]
      exact h
    rw [List.foldl_cons, ih _ hrest, hput, List.append_assoc]
    rfl

theorem eq_of_entries_eq {map other : NameMap α} (h : map.entries = other.entries) :
    map = other := by
  obtain ⟨entries, distinct⟩ := map
  obtain ⟨entries', distinct'⟩ := other
  cases h
  rfl

/-- The map that some pairs make when they are put one after another. -/
def ofPairs (pairs : List (String × α)) : NameMap α :=
  pairs.foldl (fun map pair => map.put pair.1 pair.2) .empty

theorem ofPairs_concat (pairs : List (String × α)) (pair : String × α) :
    ofPairs (pairs ++ [pair]) = (ofPairs pairs).put pair.1 pair.2 := by
  rw [ofPairs, List.foldl_append]
  rfl

/-- A map is what its entries make. -/
theorem ofPairs_entries (map : NameMap α) : ofPairs map.entries = map :=
  eq_of_entries_eq (entries_foldl_put .empty map.entries map.distinct)

/-! ## Names and what is found under them -/

/-- The names of a map, in order and as they are spelled. -/
def names (map : NameMap α) : List String := map.entries.map (·.1)

theorem get?_isSome (map : NameMap α) (name : String) :
    (map.get? name).isSome = map.names.any (sameName · name) := by
  rw [get?, Option.isSome_map, List.isSome_find?, names, List.any_map]
  rfl

theorem find?_putEntry (name : String) (value : α) (other : String)
    (entries : List (String × α)) :
    ((putEntry name value entries).find? fun entry => sameName entry.1 other).map (·.2) =
      if sameName name other then some value
      else (entries.find? fun entry => sameName entry.1 other).map (·.2) := by
  induction entries with
  | nil => cases hother : sameName name other <;> simp [putEntry, hother]
  | cons entry rest ih =>
    rw [putEntry]
    split
    · next hsame =>
      have hentry : sameName entry.1 other = sameName name other := sameName_trans hsame
      cases hother : sameName name other <;> simp [hentry, hother]
    · next hne =>
      cases hentry : sameName entry.1 other with
      | false => simpa [hentry] using ih
      | true =>
        have hother : sameName name other = false := by
          rw [Bool.eq_false_iff]
          intro hother
          exact hne (by rw [sameName_trans hentry, sameName_comm, hother])
        simp [hentry, hother]

/-- **What is found after a value is put**: the value under its name, and the same as before
under every other one. -/
theorem get?_put (map : NameMap α) (name : String) (value : α) (other : String) :
    (map.put name value).get? other =
      if sameName name other then some value else map.get? other :=
  find?_putEntry name value other map.entries

theorem map_fst_putEntry (name : String) (value : α) (entries : List (String × α)) :
    (putEntry name value entries).map (·.1) =
      if (entries.map (·.1)).any (sameName · name) then entries.map (·.1)
      else entries.map (·.1) ++ [name] := by
  induction entries with
  | nil => rfl
  | cons entry rest ih =>
    rw [putEntry]
    split
    · next hsame => simp [hsame]
    · next hne =>
      rw [Bool.not_eq_true] at hne
      rw [List.map_cons, ih, List.map_cons, List.any_cons, hne, Bool.false_or]
      split <;> rfl

/-- **The names after a value is put**: a new name comes last, and a known one changes nothing. -/
theorem names_put (map : NameMap α) (name : String) (value : α) :
    (map.put name value).names =
      if map.names.any (sameName · name) then map.names else map.names ++ [name] :=
  map_fst_putEntry name value map.entries

/-- No name comes before or behind an entry that has it. -/
theorem exists_split {entries : List (String × α)}
    (hdistinct : entries.Pairwise fun a b => sameName a.1 b.1 = false) {entry : String × α}
    (hentry : entry ∈ entries) {name : String} (hname : sameName entry.1 name = true) :
    ∃ before after, entries = before ++ entry :: after ∧
      (∀ other ∈ before, sameName other.1 name = false) ∧
        ∀ other ∈ after, sameName other.1 name = false := by
  obtain ⟨before, after, rfl⟩ := List.append_of_mem hentry
  obtain ⟨-, hafter, hbefore⟩ := List.pairwise_append.mp hdistinct
  refine ⟨before, after, rfl, ?_, ?_⟩
  · intro other hother
    rw [← sameName_congr hname]
    exact hbefore other hother entry List.mem_cons_self
  · intro other hother
    rw [← sameName_congr hname, sameName_comm]
    exact (List.pairwise_cons.mp hafter).1 other hother

/-- Among entries of different names one alone has a given name. -/
theorem filter_of_mem {entries : List (String × α)}
    (hdistinct : entries.Pairwise fun a b => sameName a.1 b.1 = false) {entry : String × α}
    (hentry : entry ∈ entries) {name : String} (hname : sameName entry.1 name = true) :
    entries.filter (fun other => sameName other.1 name) = [entry] := by
  obtain ⟨before, after, rfl, hbefore, hafter⟩ := exists_split hdistinct hentry hname
  have hnone : ∀ {others : List (String × α)}, (∀ other ∈ others, sameName other.1 name = false) →
      others.filter (fun other => sameName other.1 name) = [] := by
    intro others hothers
    rw [List.filter_eq_nil_iff]
    intro other hother
    simp [hothers other hother]
  rw [List.filter_append, hnone hbefore, List.nil_append, List.filter_cons, if_pos hname,
    hnone hafter]

/-- Under the name of an entry its value is found, and not that of another entry. -/
theorem get?_of_mem {map : NameMap α} {entry : String × α} (h : entry ∈ map.entries) :
    map.get? entry.1 = some entry.2 := by
  rw [get?, ← List.head?_filter, filter_of_mem map.distinct h (sameName_iff.mpr rfl)]
  rfl

/-- A map that pairs make has no names and no values but theirs. -/
theorem mem_ofPairs {pairs : List (String × α)} {entry : String × α}
    (h : entry ∈ (ofPairs pairs).entries) :
    (∃ pair ∈ pairs, entry.1 = pair.1) ∧ ∃ pair ∈ pairs, entry.2 = pair.2 := by
  induction pairs using List.reverseRecOn generalizing entry with
  | nil => cases h
  | append_singleton pairs last ih =>
    have hold : ∀ {p : String × α → Prop}, (∃ pair ∈ pairs, p pair) →
        ∃ pair ∈ pairs ++ [last], p pair := fun ⟨pair, hmem, hpair⟩ =>
      ⟨pair, List.mem_append_left _ hmem, hpair⟩
    have hlast : last ∈ pairs ++ [last] := List.mem_append_right _ List.mem_cons_self
    rw [ofPairs_concat] at h
    constructor
    · rcases name_of_mem_putEntry h with hname | ⟨old, hmem, hname⟩
      · exact ⟨last, hlast, hname⟩
      · rw [← hname]
        exact hold (ih hmem).1
    · rcases mem_putEntry h with hmem | ⟨hvalue, -⟩
      · exact hold (ih hmem).2
      · exact ⟨last, hlast, hvalue⟩

/-! ## Maps of pairs whose names come again -/

/-- The value of the last pair that has a name. -/
def lastUnder (name : String) (pairs : List (String × α)) : Option α :=
  (pairs.filter fun pair => sameName pair.1 name).getLast?.map (·.2)

theorem lastUnder_concat (name : String) (pairs : List (String × α)) (pair : String × α) :
    lastUnder name (pairs ++ [pair]) =
      if sameName pair.1 name then some pair.2 else lastUnder name pairs := by
  rw [lastUnder, List.filter_append]
  cases hsame : sameName pair.1 name <;> simp [hsame, lastUnder]

/-- **A name that is put again keeps its place and its spelling.** -/
theorem names_ofPairs (pairs : List (String × α)) :
    (ofPairs pairs).names = firstSpellings (pairs.map (·.1)) := by
  induction pairs using List.reverseRecOn with
  | nil => rfl
  | append_singleton pairs pair ih =>
    rw [ofPairs_concat, names_put, ih, any_firstSpellings, List.map_append, List.map_singleton,
      firstSpellings_concat]

/-- **A name that is put again takes the later value.** -/
theorem get?_ofPairs (pairs : List (String × α)) (name : String) :
    (ofPairs pairs).get? name = lastUnder name pairs := by
  induction pairs using List.reverseRecOn with
  | nil => rfl
  | append_singleton pairs pair ih => rw [ofPairs_concat, get?_put, ih, lastUnder_concat]

/-! ## One value for another -/

/-- A known name is given its value where it stands. -/
theorem putEntry_append {name spelling : String} {old value : α} {before after : List (String × α)}
    (hbefore : ∀ entry ∈ before, sameName entry.1 name = false)
    (hsame : sameName spelling name = true) :
    putEntry name value (before ++ (spelling, old) :: after) =
      before ++ (spelling, value) :: after := by
  induction before with
  | nil => rw [List.nil_append, putEntry, if_pos hsame, List.nil_append]
  | cons entry before ih =>
    obtain ⟨hentry, hbefore⟩ := List.forall_mem_cons.mp hbefore
    rw [List.cons_append, putEntry, if_neg (by simp [hentry]), ih hbefore, List.cons_append]

theorem putEntry_putEntry (name : String) (old value : α) (entries : List (String × α)) :
    putEntry name value (putEntry name old entries) = putEntry name value entries := by
  induction entries with
  | nil => simp [putEntry, sameName]
  | cons entry rest ih =>
    cases hsame : sameName entry.1 name <;> simp [putEntry, hsame, ih]

/-- **Of two values that are put under one name the second stays.** -/
theorem put_put (map : NameMap α) (name : String) (old value : α) :
    (map.put name old).put name value = map.put name value :=
  eq_of_entries_eq (putEntry_putEntry name old value map.entries)

end NameMap

end HttpWire
