import HttpWire.Proofs.Url.Grammar
import HttpWire.Proofs.Url.Query
import Mathlib.Data.List.DropRight
/-!
# Query parameters

The parameters of a URL are what was stored since its text was last read or cleared, as an ordered
map whose keys ignore letter case. Reading a text stores the parameters at the front of its query,
one after the other: the pieces between ampersands, up to the first one that is no parameter.
-/

namespace HttpWire.Url

/-! ## What a query lists -/

/-- The query of a text: what is behind the first question mark, up to the first number sign.
Without a question mark before that it is empty. -/
def queryPart (text : List Char) : List Char :=
  ((text.takeWhile (· != '#')).dropWhile (· != '?')).tail

/-- Whether `rest` is what a query becomes when one ampersand at its end is taken away. -/
def Unended (query rest : List Char) : Prop :=
  query = rest ++ ['&'] ∨ query = rest ∧ ¬ ['&'] <:+ query

/-- Whether a piece of a query is a parameter: it has an equals sign, and something before it. -/
def isParam (piece : List Char) : Bool := piece.contains '=' && piece.head? != some '='

/-- The parameter that a piece is: what is before the first equals sign, as it is written, and what
the rest stands for. -/
def readParam (piece : List Char) : String × String :=
  (String.ofList (piece.takeWhile (· != '=')),
    Percent.decode (String.ofList (piece.dropWhile (· != '=')).tail))

/-- The parameters at the front of a query, up to the first piece that is none. -/
def listed (query : List Char) : List (String × String) :=
  ((query.splitOn '&').takeWhile isParam).map readParam

theorem dropLastSeparator_of_unended {query rest : List Char} (h : Unended query rest) :
    dropLastSeparator query = rest := by
  rw [dropLastSeparator]
  rcases h with rfl | ⟨rfl, hend⟩
  · rw [List.getLast?_concat, if_pos rfl, List.dropLast_concat]
  · rw [if_neg]
    intro hlast
    obtain ⟨front, rfl⟩ := List.getLast?_eq_some_iff.mp hlast
    exact hend ⟨front, rfl⟩

/-- A piece is a pair exactly if it is a parameter. -/
theorem pair?_eq (piece : List Char) :
    pair? piece =
      if isParam piece then
        some (piece.takeWhile (· != '='), (piece.dropWhile (· != '=')).tail)
      else none := by
  obtain ⟨key, rest, rfl, hkey, hstop⟩ := exists_run (· != '=') piece
  have hmem : '=' ∉ key := not_mem_of_class hkey (by decide)
  rw [takeWhile_run hkey hstop, dropWhile_run hkey hstop, pair?]
  cases rest with
  | nil => simp [cut_of_not_mem hmem, isParam, hmem]
  | cons c value =>
    obtain rfl : c = '=' := by simpa using hstop c rfl
    rw [cut_append hmem]
    cases key with
    | nil => simp [isParam]
    | cons c key =>
      have hc : c ≠ '=' := Ne.symm (List.ne_of_not_mem_cons hmem)
      simp [isParam, hc]

/-- **The pairs of a query are the parameters that it lists.** -/
theorem map_readPair_queryPairs (query : List Char) :
    (queryPairs query).map readPair = listed (dropLastSeparator query) := by
  have hsome : Option.isSome ∘ pair? = isParam := by
    funext piece
    rw [Function.comp_apply, pair?_eq]
    cases isParam piece <;> rfl
  have hread : ∀ piece ∈ ((dropLastSeparator query).splitOn '&').takeWhile isParam,
      (pair? piece).map readPair = some (readParam piece) := by
    intro piece hpiece
    rw [pair?_eq, if_pos (List.mem_takeWhile_imp hpiece)]
    rfl
  rw [queryPairs, List.takeWhile_map, hsome, List.filterMap_map, List.map_filterMap, listed,
    ← List.filterMap_eq_map]
  exact List.filterMap_congr hread

/-! ## Where the query is -/

/-- The query of a tail is where it was put. -/
theorem queryPart_text {tail : Tail} (h : tail.WellFormed) :
    queryPart tail.text = tail.query?.getD [] := by
  rw [queryPart, Tail.text, takeWhile_run (bne_of_not_mem h.front) (bne_head?_delimited _),
    dropWhile_run (bne_of_not_mem h.path.1) (bne_head?_delimited _)]
  cases tail.query? <;> rfl

/-- A whole text is a tail, too, with everything before its query as the path. -/
theorem exists_tail {parts : Parts} (h : parts.Form) :
    ∃ path, parts.text = Tail.text { parts.tail with path } ∧
      Tail.WellFormed { parts.tail with path } := by
  cases h with
  | asterisk => exact ⟨['*'], rfl, ⟨by decide, by simp⟩⟩
  | path htail => exact ⟨_, rfl, htail⟩
  | @absolute origin tail horigin htail _ =>
    -- Both delimiters would end the authority, and the scheme is made of letters.
    have hplain : ∀ {c : Char}, endsAuthority c = true → c.isAlpha = false → c ≠ ':' → c ≠ '/' →
        c ∉ tail.path →
        c ∉ origin.scheme ++ [':', '/', '/'] ++
          authorityText origin.userinfo? origin.host origin.port? ++ tail.path := by
      intro c hends halpha hcolon hslash hpath hmem
      simp only [List.mem_append, List.mem_cons, List.not_mem_nil, or_false] at hmem
      rcases hmem with ((hscheme | hmark) | hauthority) | hmem
      · exact not_mem_of_class horigin.scheme halpha hscheme
      · rcases hmark with rfl | rfl | rfl
        · exact hcolon rfl
        · exact hslash rfl
        · exact hslash rfl
      · rw [not_endsAuthority_of_mem horigin hauthority] at hends
        cases hends
      · exact hpath hmem
    refine ⟨origin.scheme ++ [':', '/', '/'] ++
      authorityText origin.userinfo? origin.host origin.port? ++ tail.path, ?_, ?_, htail.query⟩
    · rw [Parts.text_absolute, Tail.text, Tail.text]
      simp
    · exact ⟨hplain rfl rfl (by decide) (by decide) htail.path.1,
        hplain rfl rfl (by decide) (by decide) htail.path.2⟩

/-- **The parameters of a text are those of its query.** -/
theorem params_of_parse {text : String} {url : Url} (h : parse text = .ok url) :
    url.params = NameMap.ofPairs (listed (dropLastSeparator (queryPart text.toList))) := by
  obtain ⟨parts, hparts, rfl⟩ := parse_eq_ok_iff.mp h
  obtain ⟨htext, hwell⟩ := Parts.ofText?_eq_some_iff.mp hparts
  obtain ⟨path, hpath, htail⟩ := exists_tail hwell.form
  rw [← map_readPair_queryPairs, ← queryParams_eq, htext, hpath, queryPart_text htail, ofParts]
  cases parts.tail.query? <;> rfl

/-! ## Edits -/

/-- What changes the parameters of a URL: one of them is set, or the URL is read from a text or
cleared. -/
inductive Edit where
  | setParam (key value : String)
  | parse (text : String)
  | clear
  deriving DecidableEq, Repr

namespace Edit

/-- The URL after an edit, or why the edit fails. -/
def result (url : Url) : Edit → Except Error Url
  | .setParam key value => url.setParam key value
  | .parse text => Url.parse text
  | .clear => .ok {}

/-- The URL after an edit that may fail. -/
def apply (url : Url) : Edit → Url
  | .setParam key value =>
    match url.setParam key value with
    | .ok edited => edited
    | .error _ => url
  | .parse text => url.replaceBy text
  | .clear => {}

/-- An edit that fails changes nothing. -/
theorem apply_of_error {url : Url} {edit : Edit} {error : Error}
    (h : edit.result url = .error error) : edit.apply url = url := by
  cases edit with
  | setParam key value =>
    rw [result] at h
    rw [apply, h]
  | parse text =>
    rw [result] at h
    rw [apply, replaceBy, h]
  | clear => cases h

/-- Whether an edit makes the URL anew: clearing does, and reading a text that is a URL. -/
def restarts : Edit → Bool
  | .setParam .. => false
  | .parse text => (Url.parse text).isOk
  | .clear => true

/-- The parameters that an edit stores, one after the other. -/
def stored : Edit → List (String × String)
  | .setParam key value => if key = "" ∨ value = "" then [] else [(key, value)]
  | .parse text =>
    if (Url.parse text).isOk then listed (dropLastSeparator (queryPart text.toList)) else []
  | .clear => []

end Edit

/-- The URL that some edits make of a new one. -/
def afterEdits (edits : List Edit) : Url := edits.foldl Edit.apply {}

/-- The last edit that made the URL anew, if there is one, and the edits after it. -/
def sinceRestart (edits : List Edit) : List Edit :=
  (edits.rdropWhile (!·.restarts)).getLast?.toList ++ edits.rtakeWhile (!·.restarts)

/-- The parameters that were stored since the URL was last made anew, one after the other. -/
def storedParams (edits : List Edit) : List (String × String) :=
  (sinceRestart edits).flatMap Edit.stored

theorem storedParams_concat (edits : List Edit) (edit : Edit) :
    storedParams (edits ++ [edit]) =
      if edit.restarts then edit.stored else storedParams edits ++ edit.stored := by
  rw [storedParams, sinceRestart, List.rdropWhile_concat, List.rtakeWhile_concat]
  cases hrestarts : edit.restarts <;> simp [storedParams, sinceRestart]

theorem afterEdits_concat (edits : List Edit) (edit : Edit) :
    afterEdits (edits ++ [edit]) = edit.apply (afterEdits edits) := by
  rw [afterEdits, List.foldl_append]
  rfl

/-- **The parameters are what was stored**, whatever edits came before. -/
theorem params_afterEdits (edits : List Edit) :
    (afterEdits edits).params = NameMap.ofPairs (storedParams edits) := by
  -- The last edit stores its parameters behind the others, or in the place of all of them.
  induction edits using List.reverseRecOn with
  | nil => rfl
  | append_singleton edits edit ih =>
    rw [afterEdits_concat, storedParams_concat]
    cases edit with
    | setParam key value =>
      rw [Edit.apply, setParam, Edit.restarts, Edit.stored]
      by_cases hempty : key = "" ∨ value = ""
      · simp [hempty, ih]
      · rw [if_neg (by simpa using hempty), if_neg hempty, if_neg Bool.false_ne_true,
          NameMap.ofPairs_concat, ← ih]
    | parse text =>
      rw [Edit.apply, replaceBy, Edit.restarts, Edit.stored]
      cases hparse : Url.parse text with
      | ok url => exact params_of_parse hparse
      | error error => simp [Except.isOk, Except.toBool, ih]
    | clear => rfl

/-- **Query parameters are an ordered map whose keys ignore letter case.** A text that is a URL
gives the parameters at the front of its query, up to the first piece without an equals sign or
without anything before it, and one ampersand at the end of the query does not count. Each key
comes once, where it comes first and as it is spelled there, with the value that it has last. After
any edits no two keys are the same, a key has the value that was stored under it last since the URL
was made anew, and an edit that fails leaves the parameters as they were. -/
theorem params_areStored :
    (∀ text url query, parse text = .ok url → Unended (queryPart text.toList) query →
      url.params.names = firstSpellings ((listed query).map (·.1)) ∧
        ∀ param ∈ url.params.entries,
          NameMap.lastUnder param.1 (listed query) = some param.2) ∧
    ∀ edits,
      ((afterEdits edits).params.entries.Pairwise fun a b => sameName a.1 b.1 = false) ∧
        (∀ key, (afterEdits edits).param? key = NameMap.lastUnder key (storedParams edits)) ∧
        ∀ edit error, edit.result (afterEdits edits) = .error error →
          (afterEdits (edits ++ [edit])).params = (afterEdits edits).params := by
  constructor
  · intro text url query hparse hquery
    have hparams := params_of_parse hparse
    rw [dropLastSeparator_of_unended hquery] at hparams
    constructor
    · rw [hparams, NameMap.names_ofPairs]
    · intro param hparam
      rw [← NameMap.get?_ofPairs, ← hparams]
      exact NameMap.get?_of_mem hparam
  · intro edits
    refine ⟨(afterEdits edits).params.distinct, ?_, ?_⟩
    · intro key
      rw [param?, params_afterEdits, NameMap.get?_ofPairs]
    · intro edit error hfails
      rw [afterEdits_concat, Edit.apply_of_error hfails]

/-- A text with a key in two spellings, an escape and a piece without a key. -/
def raggedText : String := "http://h?Key=1&b=&KEY=%41+B%zz&=c&d=2&"

/-- That text read over a parameter, and then a parameter of it set, without and with a value. -/
def raggedEdits : List Edit :=
  [.setParam "a" "0", .parse raggedText, .setParam "B" "", .setParam "B" "=&"]

theorem raggedText_params :
    (∃ url, parse raggedText = .ok url ∧ url.params.names = ["Key", "b"]) ∧
      (afterEdits raggedEdits).param? "kEY" = some "A B%zz" ∧
      (afterEdits raggedEdits).param? "b" = some "=&" ∧
      (afterEdits raggedEdits).param? "a" = none ∧
      (afterEdits (raggedEdits ++ [.parse "http:/"])).params = (afterEdits raggedEdits).params := by
  have hparse : parse raggedText = .ok
      { scheme? := some "http", host? := some "h", rawPort := 80
        params := ⟨[("Key", "A B%zz"), ("b", "")], by decide⟩ } := by decide +kernel
  have hquery : Unended (queryPart raggedText.toList) "Key=1&b=&KEY=%41+B%zz&=c&d=2".toList :=
    .inl (by decide +kernel)
  obtain ⟨hread, hedits⟩ := params_areStored
  obtain ⟨-, hstored, hfails⟩ := hedits raggedEdits
  obtain ⟨hnames, -⟩ := hread raggedText _ _ hparse hquery
  exact ⟨⟨_, hparse, hnames.trans (by decide +kernel)⟩, (hstored "kEY").trans (by decide +kernel),
    (hstored "b").trans (by decide +kernel), (hstored "a").trans (by decide +kernel),
    hfails (.parse "http:/") .invalidUrl (by decide +kernel)⟩

end HttpWire.Url
