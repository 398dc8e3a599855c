import HttpWire.Proofs.Headers
import Mathlib.Data.List.DropRight
import Mathlib.Data.List.ReduceOption
/-!
# Headers after edits

What headers hold after any setting, inserting and clearing follows from the settings that came
after they were last cleared: which names got a value, in which order and spelling, and what each
name got last. An edit adds one setting to these, and that is all it does to the headers.
-/

namespace HttpWire.Headers

/-! ## Settings -/

/-- A change of headers: a field is given a value or cleared, or all fields are taken away. -/
inductive Edit where
  | set (name : String) (value? : Option String)
  | insert (name value : String)
  | clear
  deriving DecidableEq, Repr

/-- The headers after a change. -/
def Edit.apply (headers : Headers) : Edit → Headers
  | .set name value? => headers.set name value?
  | .insert name value => headers.insert name value
  | .clear => {}

/-- The headers that some changes make of new ones. -/
def afterEdits (edits : List Edit) : Headers := edits.foldl Edit.apply {}

/-- The name that a change is about and what it gives it. -/
def Edit.setting? : Edit → Option (String × Option String)
  | .set name value? => some (name, value?)
  | .insert name value => some (name, some value)
  | .clear => none

/-- The settings since all fields were last taken away. -/
def settings (edits : List Edit) : List (String × Option String) :=
  ((edits.map Edit.setting?).rtakeWhile Option.isSome).reduceOption

/-- What the last setting of a name gave it; nothing if there was none or it gave nothing. -/
def lastValue? (name : String) (settings : List (String × Option String)) : Option String :=
  ((settings.filter fun setting => sameName setting.1 name).getLast?.map (·.2)).join

/-- The names that were given a value, once for each time. -/
def valued (settings : List (String × Option String)) : List String :=
  settings.filterMap fun setting => setting.2.map fun _ => setting.1

theorem afterEdits_concat (edits : List Edit) (edit : Edit) :
    afterEdits (edits ++ [edit]) = edit.apply (afterEdits edits) := by
  rw [afterEdits, List.foldl_append]
  rfl

theorem settings_concat (edits : List Edit) (edit : Edit) :
    settings (edits ++ [edit]) =
      match edit.setting? with
      | some setting => settings edits ++ [setting]
      | none => [] := by
  rw [settings, List.map_append, List.map_singleton, List.rtakeWhile_concat]
  cases edit.setting? with
  | none => rfl
  | some setting =>
    rw [Option.isSome_some, if_pos rfl, List.reduceOption_append]
    rfl

theorem lastValue?_concat (name : String) (settings : List (String × Option String))
    (setting : String × Option String) :
    lastValue? name (settings ++ [setting]) =
      if sameName setting.1 name then setting.2 else lastValue? name settings := by
  have hlast : ∀ settings, lastValue? name settings = (NameMap.lastUnder name settings).join :=
    fun _ => rfl
  rw [hlast, hlast, NameMap.lastUnder_concat]
  split <;> rfl

theorem valued_concat (settings : List (String × Option String))
    (setting : String × Option String) :
    valued (settings ++ [setting]) =
      if setting.2.isSome then valued settings ++ [setting.1] else valued settings := by
  rw [valued, List.filterMap_append]
  cases hvalue : setting.2 <;> simp [hvalue, valued]

/-! ## One setting -/

/-- The names of the fields, cleared ones included, in order and as they are spelled. -/
def names (headers : Headers) : List String := headers.fields.names

/-- **What a field reads as after a setting**: what it was given, and as before under every
other name. -/
theorem get?_set (headers : Headers) (name : String) (value? : Option String) (other : String) :
    (headers.set name value?).get? other =
      if sameName name other then value? else headers.get? other := by
  cases value? with
  | some value => exact get?_insert headers name value other
  | none =>
    rw [set, erase]
    split
    · rw [get?, NameMap.get?_put]
      split <;> rfl
    · next hunknown =>
      -- A name that is not known reads as nothing already.
      split
      · next hsame =>
        have hother : headers.fields.get? other = none := by
          rw [← hunknown, NameMap.get?, NameMap.get?]
          refine congrArg (Option.map _) (congrArg (headers.fields.entries.find? ·) ?_)
          funext entry
          rw [sameName_congr hsame]
        rw [get?, hother]
        rfl
      · rfl

/-- **The names after a setting**: a new name comes last if it is given a value, and otherwise
they stay. -/
theorem names_set (headers : Headers) (name : String) (value? : Option String) :
    (headers.set name value?).names =
      if value?.isSome && !headers.names.any (sameName · name) then headers.names ++ [name]
      else headers.names := by
  have hput : ∀ value?, (headers.fields.put name value?).names =
      if headers.names.any (sameName · name) then headers.names else headers.names ++ [name] :=
    headers.fields.names_put name
  cases value? with
  | some value =>
    rw [set, insert, names, hput]
    cases headers.names.any (sameName · name) <;> rfl
  | none =>
    rw [set, erase]
    split
    · next found hfound =>
      have hknown : headers.names.any (sameName · name) = true := by
        rw [names, ← NameMap.get?_isSome, hfound]
        rfl
      rw [names, hput, if_pos hknown]
      rfl
    · rfl

/-- Clearing a field that there is none of changes nothing. -/
theorem set_none_of_unknown {headers : Headers} {name : String}
    (h : ∀ entry ∈ headers.entries, sameName entry.1 name = false) :
    headers.set name none = headers := by
  have hunknown : headers.fields.get? name = none := by
    rw [NameMap.get?, List.find?_eq_none.mpr]
    · rfl
    · intro entry hentry
      rw [h entry hentry]
      exact Bool.false_ne_true
  rw [set, erase, hunknown]

/-! ## All settings -/

/-- **Settings decide what fields read as.** -/
theorem get?_afterEdits (edits : List Edit) (name : String) :
    (afterEdits edits).get? name = lastValue? name (settings edits) := by
  induction edits using List.reverseRecOn with
  | nil => rfl
  | append_singleton edits edit ih =>
    rw [afterEdits_concat, settings_concat]
    have hset : ∀ field value?, ((afterEdits edits).set field value?).get? name =
        lastValue? name (settings edits ++ [(field, value?)]) := by
      intro field value?
      rw [get?_set, ih, lastValue?_concat]
    cases edit with
    | set field value? => exact hset field value?
    | insert field value => exact hset field (some value)
    | clear => rfl

/-- **Settings decide which fields there are**: those whose names were given a value, in the
order and the spelling in which that first happened. -/
theorem names_afterEdits (edits : List Edit) :
    (afterEdits edits).names = firstSpellings (valued (settings edits)) := by
  induction edits using List.reverseRecOn with
  | nil => rfl
  | append_singleton edits edit ih =>
    rw [afterEdits_concat, settings_concat]
    have hset : ∀ name value?, ((afterEdits edits).set name value?).names =
        firstSpellings (valued (settings edits ++ [(name, value?)])) := by
      intro name value?
      rw [names_set, ih, any_firstSpellings, valued_concat]
      cases value? with
      | none => rfl
      | some value =>
        simp only [Option.isSome_some, Bool.true_and, if_true, firstSpellings_concat]
        cases (valued (settings edits)).any (sameName · name) <;> rfl
    cases edit with
    | set name value? => exact hset name value?
    | insert name value => exact hset name (some value)
    | clear => rfl

/-- No field moves or is spelled in another way, as long as not all fields are taken away. -/
theorem names_prefix_afterEdits (edits : List Edit) {more : List Edit} (h : .clear ∉ more) :
    (afterEdits edits).names <+: (afterEdits (edits ++ more)).names := by
  induction more using List.reverseRecOn with
  | nil => simp only [List.append_nil, List.prefix_rfl]
  | append_singleton more edit ih =>
    rw [List.mem_append, not_or] at h
    have hset : ∀ (headers : Headers) name value?,
        headers.names <+: (headers.set name value?).names := by
      intro headers name value?
      rw [names_set]
      split
      · exact List.prefix_append _ _
      · exact List.prefix_rfl
    rw [← List.append_assoc, afterEdits_concat]
    refine (ih h.1).trans ?_
    cases edit with
    | set name value? => exact hset _ name value?
    | insert name value => exact hset _ name (some value)
    | clear => exact absurd (List.mem_singleton_self _) h.2

/-! ## The headers as a whole -/

/-- The entries are the names with what each reads as. -/
theorem entries_eq (headers : Headers) :
    headers.entries = headers.names.map fun name => (name, headers.get? name) := by
  have hentry : ∀ entry ∈ headers.entries, (entry.1, headers.get? entry.1) = id entry := by
    intro entry hentry
    rw [get?, NameMap.get?_of_mem hentry]
    rfl
  have hnames : headers.names = headers.entries.map (·.1) := rfl
  rw [hnames, List.map_map]
  exact (List.map_id headers.entries).symm.trans (List.map_congr_left hentry).symm

/-- The live fields are the names that read as a value, with their values. -/
theorem live_eq (headers : Headers) :
    headers.live = headers.names.filterMap fun name =>
      (headers.get? name).map fun value => (name, value) := by
  rw [live, entries_eq, List.filterMap_map]
  rfl

/-- **Headers are an ordered map whose names ignore letter case.** After any edits no two fields
have the same name, a field reads as what its name was given last, the fields are the names that
were given a value, in the order and the spelling of the first time, and clearing and reviving
leaves them there; an unknown field cannot be cleared, and the live fields are those with a
value. -/
theorem afterEdits_isOrderedMap (edits : List Edit) :
    ((afterEdits edits).entries.Pairwise fun a b => sameName a.1 b.1 = false) ∧
      (∀ name, (afterEdits edits).get? name = lastValue? name (settings edits)) ∧
      (afterEdits edits).entries = (firstSpellings (valued (settings edits))).map (fun name =>
        (name, lastValue? name (settings edits))) ∧
      (∀ more, .clear ∉ more →
        (afterEdits edits).entries.map (·.1) <+: (afterEdits (edits ++ more)).entries.map (·.1)) ∧
      (∀ name, (∀ entry ∈ (afterEdits edits).entries, sameName entry.1 name = false) →
        (afterEdits edits).set name none = afterEdits edits) ∧
      (afterEdits edits).live = (firstSpellings (valued (settings edits))).filterMap fun name =>
        (lastValue? name (settings edits)).map fun value => (name, value) := by
  have hget : (afterEdits edits).get? = fun name => lastValue? name (settings edits) :=
    funext (get?_afterEdits edits)
  refine ⟨(afterEdits edits).fields.distinct, get?_afterEdits edits, ?_, ?_, ?_, ?_⟩
  · rw [entries_eq, names_afterEdits, hget]
  · intro more hmore
    exact names_prefix_afterEdits edits hmore
  · intro name hunknown
    exact set_none_of_unknown hunknown
  · rw [live_eq, names_afterEdits, hget]

/-- A field that is cleared and revived and one that is overwritten, in changing letter case, after
a field that was never there is cleared. -/
def revivingEdits : List Edit :=
  [.set "A" none, .insert "Host" "a", .insert "B" "1", .set "HOST" none, .insert "b" "2",
    .insert "hOST" "c"]

theorem revivingEdits_isOrderedMap :
    (afterEdits revivingEdits).get? "hosT" = some "c" ∧
      (afterEdits revivingEdits).get? "A" = none ∧
      (afterEdits revivingEdits).entries = [("Host", some "c"), ("B", some "2")] ∧
      (afterEdits revivingEdits).live = [("Host", "c"), ("B", "2")] := by
  obtain ⟨-, hget, hentries, -, -, hlive⟩ := afterEdits_isOrderedMap revivingEdits
  exact ⟨(hget "hosT").trans (by decide +kernel), (hget "A").trans (by decide +kernel),
    hentries.trans (by decide +kernel), hlive.trans (by decide +kernel)⟩

end HttpWire.Headers
