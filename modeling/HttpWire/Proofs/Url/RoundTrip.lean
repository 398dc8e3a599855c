import HttpWire.Request
import HttpWire.Proofs.NameMap
import HttpWire.Proofs.Text.Percent
import HttpWire.Proofs.Url.Query
import HttpWire.Proofs.Url.Target
/-!
# Targets read back

A URL that is written as a target in origin form reads back with the same path, query parameters
and fragment. Each delimiter is found again because nothing before it holds one: paths and keys
by assumption, values because their written form has none. What is said of tails holds for any
path and for any way of writing values.
-/

namespace HttpWire.Url

/-! ## Queries -/

/-- A key that can be written: some characters of a URL without delimiters among them. -/
structure IsKey (key : String) : Prop where
  ne_nil : key.toList ≠ []
  plain : ∀ c ∈ key.toList, isUrlChar c = true ∧ c ≠ '=' ∧ c ≠ '&' ∧ c ≠ '#'

instance (key : String) : Decidable (IsKey key) :=
  decidable_of_iff
    (key.toList ≠ [] ∧
      key.toList.all (fun c => isUrlChar c && c != '=' && c != '&' && c != '#') = true)
    ⟨fun ⟨a, b⟩ => ⟨a, by simpa [and_assoc] using b⟩,
      fun ⟨a, b⟩ => ⟨a, by simpa [and_assoc] using b⟩⟩

/-- What a value is written with means nothing in a query. -/
theorem plain_of_mem_encode {value : String} {c : Char} (h : c ∈ (Percent.encode value).toList) :
    isUrlChar c = true ∧ c ≠ '&' ∧ c ≠ '#' := by
  obtain ⟨hascii, hwritten⟩ := Percent.isWritten_of_mem_encode h
  revert hwritten
  refine Utf8.forall_ascii (p := fun c => Percent.isWritten c = true →
    isUrlChar c = true ∧ c ≠ '&' ∧ c ≠ '#') ?_ hascii
  decide +kernel

/-- Parameters with such keys are pairs that can be written. -/
theorem isPair_of_mem_writtenPairs {writeValue : String → String}
    {params : List (String × String)} (hkeys : ∀ param ∈ params, IsKey param.1)
    (hvalues : ∀ param ∈ params, '&' ∉ (writeValue param.2).toList) :
    ∀ pair ∈ writtenPairs writeValue params, IsPair pair := by
  intro pair hpair
  obtain ⟨param, hparam, rfl⟩ := List.mem_map.mp hpair
  have hplain := (hkeys param hparam).plain
  exact
    { key_ne_nil := (hkeys param hparam).ne_nil
      key := ⟨fun hmem => (hplain '=' hmem).2.1 rfl, fun hmem => (hplain '&' hmem).2.2.1 rfl⟩
      value := hvalues param hparam }

/-- A query does not end before its last parameter. -/
theorem plain_of_mem_pairsText {writeValue : String → String} {params : List (String × String)}
    (hkeys : ∀ param ∈ params, IsKey param.1)
    (hvalues : ∀ param ∈ params, ∀ c ∈ (writeValue param.2).toList, isUrlChar c = true ∧ c ≠ '#')
    {c : Char} (h : c ∈ pairsText (writtenPairs writeValue params)) :
    isUrlChar c = true ∧ c ≠ '#' := by
  rcases mem_pairsText h with rfl | ⟨pair, hpair, hc⟩
  · decide
  · obtain ⟨param, hparam, rfl⟩ := List.mem_map.mp hpair
    rw [pairText, List.mem_append, List.mem_cons] at hc
    rcases hc with hmem | rfl | hmem
    · obtain ⟨hchar, -, -, hnumber⟩ := (hkeys param hparam).plain c hmem
      exact ⟨hchar, hnumber⟩
    · decide
    · exact hvalues param hparam c hmem

/-! ## Tails -/

/-- The tail that a URL is written with behind a path, with one way of writing values. -/
def writtenTail (writeValue : String → String) (path : String) (url : Url) : Tail where
  path := path.toList
  query? := if url.params.entries = [] then none
    else some (pairsText (writtenPairs writeValue url.params.entries))
  fragment? := url.fragment?.map String.toList

section Tails

variable {writeValue : String → String} {path : String} {url : Url}

theorem text_writtenTail : (writtenTail writeValue path url).text =
    path.toList ++ queryText writeValue url.params ++ fragmentText url.fragment? := by
  have hfragment : fragmentText url.fragment? =
      delimited '#' (writtenTail writeValue path url).fragment? := by
    cases h : url.fragment? <;> simp [writtenTail, fragmentText, delimited, h]
  rw [queryText_eq_delimited, hfragment]
  rfl

/-- A tail falls apart again if this is so for each of its parts. -/
theorem plain_writtenTail (hpath : ∀ c ∈ path.toList, isUrlChar c = true ∧ c ≠ '?' ∧ c ≠ '#')
    (hkeys : ∀ param ∈ url.params.entries, IsKey param.1)
    (hvalues : ∀ param ∈ url.params.entries, ∀ c ∈ (writeValue param.2).toList,
      isUrlChar c = true ∧ c ≠ '#')
    (hfragment : ∀ fragment ∈ url.fragment?, ∀ c ∈ fragment.toList, isUrlChar c = true) :
    (writtenTail writeValue path url).Plain where
  path := hpath
  query := by
    intro query hquery c hc
    rw [writtenTail] at hquery
    split at hquery
    · cases hquery
    · cases hquery
      exact plain_of_mem_pairsText hkeys hvalues hc
  fragment := by
    intro chars hchars
    obtain ⟨fragment, hset, rfl⟩ := Option.map_eq_some_iff.mp hchars
    exact hfragment fragment hset

theorem params_writtenTail (hkeys : ∀ param ∈ url.params.entries, IsKey param.1)
    (hvalues : ∀ param ∈ url.params.entries, '&' ∉ (writeValue param.2).toList)
    (hdecode : ∀ param ∈ url.params.entries, Percent.decode (writeValue param.2) = param.2) :
    ((writtenTail writeValue path url).query?.map queryParams).getD .empty = url.params := by
  rw [writtenTail]
  split
  · next hnil => exact NameMap.eq_of_entries_eq hnil.symm
  · next hsome =>
    exact queryParams_writtenPairs hsome (isPair_of_mem_writtenPairs hkeys hvalues) hdecode

theorem fragment_writtenTail :
    (writtenTail writeValue path url).fragment?.map String.ofList = url.fragment? := by
  cases h : url.fragment? <;> simp [writtenTail, h]

end Tails

/-! ## Targets -/

/-- A URL whose target can be read back: the path and the fragment are made of characters of a
URL, the path starts with a slash, and nothing before a delimiter holds one. -/
structure HasTarget (url : Url) : Prop where
  slash : ∀ path ∈ url.path?, path.toList.head? = some '/'
  path : ∀ path ∈ url.path?, ∀ c ∈ path.toList, isUrlChar c = true ∧ c ≠ '?' ∧ c ≠ '#'
  keys : ∀ param ∈ url.params.entries, IsKey param.1
  fragment : ∀ fragment ∈ url.fragment?, ∀ c ∈ fragment.toList, isUrlChar c = true

instance (url : Url) : Decidable url.HasTarget :=
  decidable_of_iff
    ((∀ path ∈ url.path?, path.toList.head? = some '/') ∧
      (∀ path ∈ url.path?,
        path.toList.all (fun c => isUrlChar c && c != '?' && c != '#') = true) ∧
      (∀ param ∈ url.params.entries, IsKey param.1) ∧
      ∀ fragment ∈ url.fragment?, fragment.toList.all isUrlChar = true)
    ⟨fun ⟨a, b, c, d⟩ => ⟨a, by simpa [and_assoc] using b, c, by simpa using d⟩,
      fun ⟨a, b, c, d⟩ => ⟨a, by simpa [and_assoc] using b, c, by simpa using d⟩⟩

/-- The tail that a target is the text of. -/
def targetTail (url : Url) : Tail := writtenTail Percent.encode (url.path?.getD "/") url

theorem toList_target (r : Request) : r.target.toList = (targetTail r.url).text := by
  rw [Request.target, String.toList_ofList, targetTail, text_writtenTail]

namespace HasTarget

variable {url : Url}

/-- The path with its default in place has what a path that is set has. -/
theorem getD_path (h : HasTarget url) : (url.path?.getD "/").toList.head? = some '/' ∧
    ∀ c ∈ (url.path?.getD "/").toList, isUrlChar c = true ∧ c ≠ '?' ∧ c ≠ '#' := by
  cases hpath : url.path? with
  | none =>
    have hslash : ∀ c ∈ ("/" : String).toList, c = '/' := by
      intro c hc
      exact List.mem_singleton.mp hc
    refine ⟨rfl, fun c hc => ?_⟩
    rw [hslash c hc]
    decide
  | some path => exact ⟨h.slash path hpath, h.path path hpath⟩

theorem plain (h : HasTarget url) : (targetTail url).Plain := by
  refine plain_writtenTail h.getD_path.2 h.keys (fun param _ c hc => ?_) h.fragment
  obtain ⟨hchar, -, hnumber⟩ := plain_of_mem_encode hc
  exact ⟨hchar, hnumber⟩

/-- The target falls apart into its path, its query and its fragment. -/
theorem wellFormed (h : HasTarget url) : Parts.WellFormed ⟨none, targetTail url⟩ := by
  obtain ⟨htail, hchars⟩ := Tail.plain_iff.mp h.plain
  exact ⟨hchars, .path htail h.getD_path.1⟩

/-- A target starts with the slash of its path. -/
theorem exists_slash (h : HasTarget url) : ∃ rest, (targetTail url).text = '/' :: rest := by
  obtain ⟨rest, hpath⟩ : ∃ rest, (url.path?.getD "/").toList = '/' :: rest := by
    have hslash := h.getD_path.1
    cases hchars : (url.path?.getD "/").toList with
    | nil => rw [hchars] at hslash; cases hslash
    | cons c rest => rw [hchars] at hslash; cases hslash; exact ⟨rest, rfl⟩
  have hpath' : (targetTail url).path = '/' :: rest := hpath
  rw [Tail.text, hpath', List.append_assoc, List.cons_append]
  exact ⟨_, rfl⟩

end HasTarget

/-- **A target reads back** as a URL with the same path, query parameters and fragment, and
with nothing else in it. -/
theorem parse_target {r : Request} (h : HasTarget r.url) :
    parse r.target =
      .ok { path? := some (r.url.path?.getD "/")
            fragment? := r.url.fragment?
            params := r.url.params } := by
  have hpath : (r.url.path?.getD "/").toList ≠ [] := by
    intro hnil
    have hslash := h.getD_path.1
    rw [hnil] at hslash
    cases hslash
  have hparams : ((targetTail r.url).query?.map queryParams).getD .empty = r.url.params :=
    params_writtenTail h.keys (fun _ _ hmem => (plain_of_mem_encode hmem).2.1 rfl)
      fun param _ => Percent.decode_encode param.2
  have hfragment : (targetTail r.url).fragment?.map String.ofList = r.url.fragment? :=
    fragment_writtenTail
  have hsplit : Parts.ofText? (targetTail r.url).text = some ⟨none, targetTail r.url⟩ :=
    ofText?_text h.wellFormed
  rw [parse_eq, toList_target, hsplit]
  simp only [ofParts, hparams, hfragment]
  simp [targetTail, writtenTail, hpath]

/-- The bytes of a target are bytes that a request line may hold as its target. -/
theorem isTarget_of_mem_target {r : Request} (h : HasTarget r.url) :
    ∀ b ∈ Utf8.encode r.target, Byte.isTarget b = true := by
  refine isTarget_iff_isUrlChar.mpr fun c hc => ?_
  rw [toList_target] at hc
  exact (Tail.plain_iff.mp h.plain).2 c hc

theorem target_ne_nil {r : Request} (h : HasTarget r.url) : Utf8.encode r.target ≠ [] := by
  obtain ⟨rest, hslash⟩ := h.exists_slash
  rw [Utf8.encode, toList_target, hslash, List.flatMap_cons]
  exact List.append_ne_nil_of_left_ne_nil String.utf8EncodeChar_ne_nil _

end HttpWire.Url
