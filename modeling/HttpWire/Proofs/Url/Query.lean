import HttpWire.Proofs.NameMap
import HttpWire.Proofs.Url.Parts
import HttpWire.Url.Parse
/-!
# Queries

A query falls apart into the pairs that it was joined from, in whatever form the values are
written, as long as no delimiter is among the characters before it. And every pair that is read
from a query is one that could have been written.
-/

namespace HttpWire.Url

/-! ## Pairs -/

/-- A key and a value as they can be written: the key is not empty, and no delimiter is in it or
in the value. -/
structure IsPair (pair : List Char × List Char) : Prop where
  key_ne_nil : pair.1 ≠ []
  key : '=' ∉ pair.1 ∧ '&' ∉ pair.1
  value : '&' ∉ pair.2

theorem pair?_eq_some_iff {piece : List Char} {pair : List Char × List Char} :
    pair? piece = some pair ↔ piece = pairText pair ∧ pair.1 ≠ [] ∧ '=' ∉ pair.1 := by
  obtain ⟨⟨key, value?⟩, hcut⟩ : ∃ split, cut '=' piece = split := ⟨_, rfl⟩
  rw [pair?, hcut]
  constructor
  · intro h
    split at h
    · cases h
    · next key value heq =>
      cases heq
      obtain ⟨htext, hkey⟩ := cut_eq_iff.mp hcut
      split at h
      · cases h
      · next hne =>
        cases h
        exact ⟨htext, by simpa using hne, hkey⟩
  · rintro ⟨rfl, hne, hkey⟩
    rw [pairText, cut_append hkey] at hcut
    cases hcut
    dsimp only
    rw [if_neg (by simpa using hne)]

theorem not_mem_pairText {pair : List Char × List Char} (h : IsPair pair) :
    '&' ∉ pairText pair := by
  rw [pairText, List.mem_append, List.mem_cons]
  rintro (hmem | heq | hmem)
  · exact h.key.2 hmem
  · exact absurd heq (by decide)
  · exact h.value hmem

/-! ## Joining -/

theorem pairsText_cons (pair next : List Char × List Char)
    (pairs : List (List Char × List Char)) :
    pairsText (pair :: next :: pairs) = pairText pair ++ '&' :: pairsText (next :: pairs) := by
  rw [pairsText, List.map_cons, List.map_cons, List.intercalate_cons_cons, List.append_assoc]
  rfl

theorem mem_pairsText {pairs : List (List Char × List Char)} {c : Char}
    (h : c ∈ pairsText pairs) : c = '&' ∨ ∃ pair ∈ pairs, c ∈ pairText pair := by
  induction pairs with
  | nil => cases h
  | cons pair pairs ih =>
    cases pairs with
    | nil =>
      rw [pairsText, List.map_singleton, List.intercalate_singleton] at h
      exact .inr ⟨pair, List.mem_cons_self, h⟩
    | cons next pairs =>
      rw [pairsText_cons, List.mem_append, List.mem_cons] at h
      rcases h with hmem | rfl | hmem
      · exact .inr ⟨pair, List.mem_cons_self, hmem⟩
      · exact .inl rfl
      · rcases ih hmem with heq | ⟨other, hother, hc⟩
        · exact .inl heq
        · exact .inr ⟨other, List.mem_cons_of_mem _ hother, hc⟩

/-- A query does not end in a separator, so none is dropped from its end. -/
theorem dropLastSeparator_pairsText {pairs : List (List Char × List Char)} (hsome : pairs ≠ [])
    (hpairs : ∀ pair ∈ pairs, IsPair pair) :
    dropLastSeparator (pairsText pairs) = pairsText pairs := by
  suffices hlast : ∃ c, (pairsText pairs).getLast? = some c ∧ c ≠ '&' by
    obtain ⟨c, hlast, hc⟩ := hlast
    rw [dropLastSeparator, if_neg (by simpa [hlast] using hc)]
  induction pairs with
  | nil => exact absurd rfl hsome
  | cons pair pairs ih =>
    cases pairs with
    | nil =>
      have hne : pairText pair ≠ [] := List.append_ne_nil_of_right_ne_nil _ (List.cons_ne_nil _ _)
      rw [pairsText, List.map_singleton, List.intercalate_singleton]
      refine ⟨_, List.getLast?_eq_some_getLast hne, ?_⟩
      intro heq
      exact not_mem_pairText (hpairs pair List.mem_cons_self) (heq ▸ List.getLast_mem hne)
    | cons next pairs =>
      obtain ⟨c, hlast, hc⟩ := ih (List.cons_ne_nil _ _) fun other hmem =>
        hpairs other (List.mem_cons_of_mem _ hmem)
      refine ⟨c, ?_, hc⟩
      rw [pairsText_cons, List.getLast?_append, List.getLast?_cons, hlast]
      rfl

/-- **A query falls apart into the pairs it was made of.** -/
theorem queryPairs_pairsText {pairs : List (List Char × List Char)} (hsome : pairs ≠ [])
    (hpairs : ∀ pair ∈ pairs, IsPair pair) : queryPairs (pairsText pairs) = pairs := by
  have hpieces : ∀ piece ∈ pairs.map pairText, '&' ∉ piece := by
    intro piece hpiece
    obtain ⟨pair, hpair, rfl⟩ := List.mem_map.mp hpiece
    exact not_mem_pairText (hpairs pair hpair)
  have hread : (pairs.map pairText).map pair? = pairs.map some := by
    rw [List.map_map]
    refine List.map_congr_left fun pair hpair => ?_
    have hwell := hpairs pair hpair
    exact pair?_eq_some_iff.mpr ⟨rfl, hwell.key_ne_nil, hwell.key.1⟩
  have hsomes : (pairs.map some).takeWhile Option.isSome = pairs.map some := by
    rw [List.takeWhile_eq_self_iff]
    intro pair? hpair
    obtain ⟨pair, -, rfl⟩ := List.mem_map.mp hpair
    rfl
  have hall : (pairs.map some).filterMap id = pairs := by
    rw [List.filterMap_map]
    exact List.filterMap_some
  rw [queryPairs, dropLastSeparator_pairsText hsome hpairs, pairsText,
    List.splitOn_intercalate '&' hpieces (by simpa using hsome), hread, hsomes, hall]

/-! ## Parameters -/

theorem queryText_eq_delimited (writeValue : String → String) (params : NameMap String) :
    queryText writeValue params =
      delimited '?' (if params.entries = [] then none
        else some (pairsText (writtenPairs writeValue params.entries))) := by
  rw [queryText]
  cases params.entries with
  | nil => rfl
  | cons entry entries => rw [if_neg (List.cons_ne_nil _ _), delimited]

/-- A parameter as it is read from a pair: its value is decoded and its key is not. -/
def readPair (pair : List Char × List Char) : String × String :=
  (String.ofList pair.1, Percent.decode (String.ofList pair.2))

/-- The parameters of a query are what its pairs make. -/
theorem queryParams_eq (query : List Char) :
    queryParams query = NameMap.ofPairs ((queryPairs query).map readPair) := by
  rw [queryParams, NameMap.ofPairs, List.foldl_map]
  rfl

/-- **Parameters survive being written**, with their keys, their values and their order, if the
way of writing values can be undone. -/
theorem queryParams_writtenPairs {writeValue : String → String} {params : NameMap String}
    (hsome : params.entries ≠ [])
    (hpairs : ∀ pair ∈ writtenPairs writeValue params.entries, IsPair pair)
    (hvalues : ∀ param ∈ params.entries, Percent.decode (writeValue param.2) = param.2) :
    queryParams (pairsText (writtenPairs writeValue params.entries)) = params := by
  have hread : (writtenPairs writeValue params.entries).map readPair = params.entries := by
    rw [writtenPairs, List.map_map]
    refine (List.map_congr_left fun param hparam => ?_).trans (List.map_id _)
    rw [Function.comp_apply, readPair, String.ofList_toList, String.ofList_toList,
      hvalues param hparam]
    rfl
  rw [queryParams_eq, queryPairs_pairsText (by simpa [writtenPairs] using hsome) hpairs, hread]
  exact NameMap.ofPairs_entries params

/-! ## Reading -/

/-- The pieces between delimiters hold none of them, and nothing that was not there. -/
theorem mem_splitOn {delimiter : Char} {text piece : List Char}
    (h : piece ∈ text.splitOn delimiter) :
    delimiter ∉ piece ∧ ∀ c ∈ piece, c ∈ text := by
  induction text generalizing piece with
  | nil =>
    rw [List.splitOn_nil, List.mem_singleton] at h
    subst h
    simp
  | cons c text ih =>
    rw [List.splitOn_cons_eq_if_modifyHead] at h
    split at h
    · rcases List.mem_cons.mp h with rfl | hmem
      · simp
      · obtain ⟨hnot, hsub⟩ := ih hmem
        exact ⟨hnot, fun d hd => List.mem_cons_of_mem _ (hsub d hd)⟩
    · next hne =>
      obtain ⟨first, rest, hsplit⟩ :=
        List.exists_cons_of_ne_nil (List.splitOn_ne_nil delimiter text)
      rw [hsplit, List.modifyHead_cons] at h
      rcases List.mem_cons.mp h with rfl | hmem
      · obtain ⟨hnot, hsub⟩ := ih (hsplit ▸ List.mem_cons_self)
        refine ⟨?_, ?_⟩
        · rw [List.mem_cons, not_or]
          exact ⟨fun heq => hne (by simp [heq]), hnot⟩
        · intro d hd
          rcases List.mem_cons.mp hd with rfl | hd
          · exact List.mem_cons_self
          · exact List.mem_cons_of_mem _ (hsub d hd)
      · obtain ⟨hnot, hsub⟩ := ih (hsplit ▸ List.mem_cons_of_mem _ hmem)
        exact ⟨hnot, fun d hd => List.mem_cons_of_mem _ (hsub d hd)⟩

/-- **What is read from a query could have been written**, and is made of its characters. -/
theorem isPair_of_mem_queryPairs {query : List Char} {pair : List Char × List Char}
    (h : pair ∈ queryPairs query) : IsPair pair ∧ ∀ c ∈ pairText pair, c ∈ query := by
  obtain ⟨pair?', hmem, hpair⟩ := List.mem_filterMap.mp h
  obtain rfl : pair?' = some pair := hpair
  obtain ⟨piece, hpiece, hread⟩ := List.mem_map.mp ((List.takeWhile_prefix _).subset hmem)
  obtain ⟨rfl, hne, hkey⟩ := pair?_eq_some_iff.mp hread
  obtain ⟨hnot, hsub⟩ := mem_splitOn hpiece
  have hdrop : ∀ c ∈ dropLastSeparator query, c ∈ query := by
    intro c hc
    rw [dropLastSeparator] at hc
    split at hc
    · exact List.dropLast_subset _ hc
    · exact hc
  rw [pairText, List.mem_append, List.mem_cons, not_or, not_or] at hnot
  exact ⟨⟨hne, ⟨hkey, hnot.1⟩, hnot.2.2⟩, fun c hc => hdrop c (hsub c hc)⟩

/-- The keys and the values of the parameters are those of the pairs. A value may stand under the
key of another pair, since keys that differ in case only are one. -/
theorem mem_queryParams {query : List Char} {param : String × String}
    (h : param ∈ (queryParams query).entries) :
    (∃ pair ∈ queryPairs query, param.1 = String.ofList pair.1) ∧
      ∃ pair ∈ queryPairs query, param.2 = Percent.decode (String.ofList pair.2) := by
  rw [queryParams_eq] at h
  obtain ⟨⟨keyed, hkeyed, hkey⟩, valued, hvalued, hvalue⟩ := NameMap.mem_ofPairs h
  obtain ⟨pair, hpair, rfl⟩ := List.mem_map.mp hkeyed
  obtain ⟨other, hother, rfl⟩ := List.mem_map.mp hvalued
  exact ⟨⟨pair, hpair, hkey⟩, other, hother, hvalue⟩

end HttpWire.Url
