import HttpWire.Proofs.Reader.Cut
import HttpWire.Text.Utf8
/-!
# Feeding piece by piece

However a stream is cut into pieces, feeding them one after another is feeding the stream. What
the calls return adds up to what the one call returns: their counts, or the first error, which
every later call repeats.
-/

namespace HttpWire.Reader

variable {kind : Kind}

/-! ## Several calls -/

/-- What several calls did: the events they reported, the reader after them, and what each of
them returned. -/
structure Calls (kind : Kind) where
  events : List Event
  reader : Reader kind
  results : List (Except Error Nat)

/-- Feeds the pieces of a stream in turn. No error keeps the later pieces back. -/
def feedAll (r : Reader kind) : List Bytes → Calls kind
  | [] => ⟨[], r, []⟩
  | piece :: pieces =>
    let first := r.feed piece
    let later := first.reader.feedAll pieces
    ⟨first.events ++ later.events, later.reader, first.result :: later.results⟩

/-- What the results of several calls add up to: the sum of their counts, or the first error if
every later call repeats it. -/
inductive AddUp : List (Except Error Nat) → Except Error Nat → Prop where
  | none : AddUp [] (.ok 0)
  | count {results : List (Except Error Nat)} {result : Except Error Nat} (n : Nat)
      (later : AddUp results result) : AddUp (.ok n :: results) (result.map (n + ·))
  | failed {results : List (Except Error Nat)} (error : Error)
      (later : ∀ result ∈ results, result = .error error) :
      AddUp (.error error :: results) (.error error)

namespace AddUp

variable {results : List (Except Error Nat)} {result : Except Error Nat}

theorem counts (h : AddUp results result) {n : Nat} (hn : result = .ok n) :
    ∃ ns : List Nat, results = ns.map .ok ∧ ns.foldr (· + ·) 0 = n := by
  induction h generalizing n with
  | none =>
    cases hn
    exact ⟨[], rfl, rfl⟩
  | failed error later => cases hn
  | @count results result m later ih =>
    cases result with
    | error error => cases hn
    | ok k =>
      cases hn
      obtain ⟨ns, rfl, rfl⟩ := ih rfl
      exact ⟨m :: ns, rfl, rfl⟩

theorem error_iff (h : AddUp results result) (error : Error) :
    result = .error error ↔ .error error ∈ results := by
  induction h with
  | none => exact ⟨by rintro ⟨⟩, by simp⟩
  | @failed results first later =>
    rw [List.mem_cons]
    constructor
    · intro herror
      cases herror
      exact .inl rfl
    · rintro (hfirst | hlater)
      · exact hfirst.symm
      · exact (later _ hlater).symm
  | @count results result n later ih =>
    have hmap : result.map (n + ·) = .error error ↔ result = .error error := by
      cases result <;> simp [Except.map]
    rw [hmap, ih, List.mem_cons]
    exact ⟨.inr, fun hmem => hmem.resolve_left (by rintro ⟨⟩)⟩

theorem repeats (h : AddUp results result) {before after : List (Except Error Nat)}
    {error : Error} (hcut : results = before ++ .error error :: after) :
    ∀ r ∈ after, r = .error error := by
  induction h generalizing before with
  | none => cases before <;> cases hcut
  | @failed results first later =>
    cases before with
    | nil =>
      cases hcut
      exact later
    | cons _ before =>
      injection hcut with _ htail
      subst htail
      have hsame := later (.error error) (by simp)
      intro r hr
      rw [hsame]
      exact later r (by simp [hr])
  | @count results result n later ih =>
    cases before with
    | nil => cases hcut
    | cons _ before =>
      injection hcut with _ htail
      exact ih htail

end AddUp

/-! ## Calls against one call -/

/-- A reader that every call leaves as it is reports nothing and returns the same every time. -/
theorem feedAll_of_stopped {r : Reader kind} {result : Except Error Nat}
    (h : ∀ input, r.feed input = ⟨[], r, result⟩) (pieces : List Bytes) :
    r.feedAll pieces = ⟨[], r, pieces.map fun _ => result⟩ := by
  induction pieces with
  | nil => rfl
  | cons piece pieces ih =>
    rw [feedAll, h]
    dsimp only
    rw [ih]
    rfl

/-- Calls that come to what one run does: they report the same, up to how bodies are cut, leave
the same reader, and their results add up to that of the run. -/
structure Calls.ComeTo (calls : Calls kind) (p : Progress kind) : Prop where
  events : Event.joinBodies calls.events = Event.joinBodies p.events
  reader : calls.reader = p.reader
  results : AddUp calls.results p.result

theorem Calls.ComeTo.of_agree {calls : Calls kind} {p q : Progress kind} (h : calls.ComeTo p)
    (hagree : q.Agree p) : calls.ComeTo q := by
  obtain ⟨hevents, hreader, hresults⟩ := h
  rw [← hagree.result] at hresults
  exact ⟨hevents.trans hagree.events.symm, hreader.trans hagree.reader.symm, hresults⟩

/-- What takes in two pieces of a body like both in one ends the same with calls that come to the
same. -/
theorem Calls.ComeTo.foldl {σ : Type} {f : σ → Event → σ}
    (hf : ∀ s a b, f (f s (.body a)) (.body b) = f s (.body (a ++ b))) {calls : Calls kind}
    {p : Progress kind} (h : calls.ComeTo p) (s : σ) :
    calls.events.foldl f s = p.events.foldl f s :=
  Event.foldl_congr_of_joinBodies hf h.events s

/-- A stream of pieces that are not empty is input. -/
theorem feed_flatten (r : Reader kind) {pieces : List Bytes} (hsome : pieces ≠ [])
    (hne : ∀ piece ∈ pieces, piece ≠ []) : r.feed pieces.flatten = r.consume pieces.flatten := by
  apply feed_of_ne_nil
  obtain ⟨piece, later, rfl⟩ := List.exists_cons_of_ne_nil hsome
  intro hnil
  rw [List.flatten_cons, List.append_eq_nil_iff] at hnil
  exact hne piece (by simp) hnil.1

/-- Calls on the pieces of a stream do what a run over the stream does. -/
theorem feedAll_flatten {r : Reader kind} (hsound : r.state.Sound r.limits) {pieces : List Bytes}
    (hne : ∀ piece ∈ pieces, piece ≠ []) :
    (r.feedAll pieces).ComeTo (r.consume pieces.flatten) := by
  induction pieces generalizing r with
  | nil =>
    rw [List.flatten_nil, consume_nil]
    exact ⟨rfl, rfl, .none⟩
  | cons piece pieces ih =>
    have hfeed : r.feed piece = r.consume piece := feed_of_ne_nil (hne piece (by simp))
    have hcut := consume_append hsound piece pieces.flatten
    rw [List.flatten_cons]
    refine Calls.ComeTo.of_agree ?_ hcut
    rw [feedAll, hfeed]
    cases hresult : (r.consume piece).result with
    | error error =>
      -- The later pieces are fed all the same, and each of them meets the error.
      have hfailed := consume_failsForGood r piece error hresult
      rw [Progress.andThen_of_error hresult, feedAll_of_stopped (feed_of_failed hfailed) pieces,
        List.append_nil]
      refine ⟨rfl, rfl, ?_⟩
      rw [hresult]
      refine .failed error fun result hmem => ?_
      obtain ⟨-, -, rfl⟩ := List.mem_map.mp hmem
      rfl
    | ok n =>
      obtain ⟨hevents, hreader, hresults⟩ :=
        ih (consume_sound hsound piece) fun piece hmem => hne piece (by simp [hmem])
      rw [Progress.andThen_of_ok hresult]
      exact ⟨Event.joinBodies_append_congr rfl hevents, hreader, .count n hresults⟩

/-- **Cuts make no difference.** However a stream is cut into pieces, feeding them to a new reader
reports the same events as feeding the whole stream to another, up to how bodies are cut. The one
call fails exactly if one of the others does, with the same error, and then all later ones return
that error too; if it succeeds then the others do, and their counts add up to its own. The readers
are the same in the end, with their start lines and with whether they have stopped at a switch of
protocols. -/
theorem feedAll_agrees_feed (kind : Kind) (limits : Limits) (pieces : List Bytes)
    (hsome : pieces ≠ []) (hne : ∀ piece ∈ pieces, piece ≠ []) :
    let whole := ({ limits } : Reader kind).feed pieces.flatten
    let cut := ({ limits } : Reader kind).feedAll pieces
    Event.joinBodies cut.events = Event.joinBodies whole.events ∧
      (∀ error, whole.result = .error error ↔ .error error ∈ cut.results) ∧
      (∀ error before after, cut.results = before ++ .error error :: after →
        ∀ result ∈ after, result = .error error) ∧
      (∀ n, whole.result = .ok n →
        ∃ ns : List Nat, cut.results = ns.map .ok ∧ ns.foldr (· + ·) 0 = n) ∧
      cut.reader = whole.reader := by
  intro whole cut
  have hstream : pieces.flatten ≠ [] := by
    obtain ⟨piece, pieces', rfl⟩ := List.exists_cons_of_ne_nil hsome
    intro hnil
    rw [List.flatten_cons, List.append_eq_nil_iff] at hnil
    exact hne piece (by simp) hnil.1
  have hwhole : whole = ({ limits } : Reader kind).consume pieces.flatten :=
    feed_of_ne_nil hstream
  obtain ⟨hevents, hreader, hresults⟩ :=
    feedAll_flatten (r := ({ limits } : Reader kind)) (State.sound_idle limits) hne
  rw [← hwhole] at hevents hreader hresults
  exact ⟨hevents, hresults.error_iff, fun _ _ _ hcut => hresults.repeats hcut,
    fun _ hn => hresults.counts hn, hreader⟩

/-- A chunked request, cut inside a line break, the empty line, a size line and a chunk. -/
def piecesOfPost : List Bytes :=
  ["POST / HTTP/1.1\r", "\nTransfer-Encoding: chunked\r\n\r", "\n", "3", "\r\nab", "c\r\n0\r\n\r",
    "\n"].map Utf8.encode

theorem piecesOfPost_agrees :
    (piecesOfPost ≠ [] ∧ ∀ piece ∈ piecesOfPost, piece ≠ []) ∧
      (({} : Reader .request).feedAll piecesOfPost).reader =
        (({} : Reader .request).feed piecesOfPost.flatten).reader ∧
      Event.joinBodies (({} : Reader .request).feedAll piecesOfPost).events =
        Event.joinBodies (({} : Reader .request).feed piecesOfPost.flatten).events := by
  have hsome : piecesOfPost ≠ [] := by decide
  have hne : ∀ piece ∈ piecesOfPost, piece ≠ [] := by decide
  obtain ⟨hevents, -, -, -, hreader⟩ := feedAll_agrees_feed .request {} piecesOfPost hsome hne
  exact ⟨⟨hsome, hne⟩, hreader, hevents⟩

end HttpWire.Reader
