import HttpWire.Proofs.Message.Receive
import HttpWire.Proofs.Reader.Consumption
/-!
# Answers

Every call that hands a piece of a stream to a reader is answered, by what the reader returns and by
how far the message has come that takes in what it reports. However the stream is cut, the answers
to its pieces agree with the answer to the stream in one call (`answers_agree`).
-/

namespace HttpWire.Message

variable {kind : Kind}

/-! ## Single answers -/

/-- A call that consumes all that it is given says how far the message has come. -/
theorem answer_of_whole (m : Message) (n : Nat) : m.answer (.ok n) n = .ok m.phase.receipt := by
  simp [answer, Except.bind]

theorem answer_of_less (m : Message) {n supplied : Nat} (h : n < supplied) :
    m.answer (.ok n) supplied = .error (.unconsumed n supplied) := by
  simp [answer, Except.bind, h]

/-- An answer when so many bytes have been consumed in front. -/
def answerBehind (front : Nat) : Except Error Receipt → Except Error Receipt
  | .error (.unconsumed consumed supplied) =>
    .error (.unconsumed (front + consumed) (front + supplied))
  | answer => answer

theorem answerBehind_of_findsError (front : Nat) {error : Error} (h : Reader.FindsError error) :
    answerBehind front (.error error) = .error error := by
  cases error with
  | unconsumed consumed supplied => exact h.elim
  | _ => rfl

/-- Bytes that are consumed in front of an input add to what is consumed and to what there is. -/
theorem answer_map_add (m : Message) {result : Except Error Nat}
    (hfinds : ∀ error, result = .error error → Reader.FindsError error) (front supplied : Nat) :
    m.answer (result.map (front + ·)) (front + supplied) =
      answerBehind front (m.answer result supplied) := by
  cases result with
  | error error => exact (answerBehind_of_findsError front (hfinds error rfl)).symm
  | ok n =>
    simp only [answer, Except.map, Except.bind, Nat.add_lt_add_iff_left]
    split
    · rfl
    · rfl

/-! ## Many answers -/

/-- The answers to the pieces of a stream that are handed to a reader in turn, while a message takes
in what it reports. -/
def answers (m : Message) (r : Reader kind) : List Bytes → List (Except Error Receipt)
  | [] => []
  | piece :: pieces =>
    let progress := r.feed piece
    let received := progress.events.foldl receive m
    received.answer progress.result piece.length :: received.answers progress.reader pieces

/-- Calls that leave the reader as it is are all answered by what they return. -/
theorem answers_of_stopped {r : Reader kind} {result : Except Error Nat}
    (h : ∀ input, r.feed input = ⟨[], r, result⟩) (m : Message) (pieces : List Bytes) :
    m.answers r pieces = pieces.map fun piece => m.answer result piece.length := by
  induction pieces with
  | nil => rfl
  | cons piece pieces ih =>
    rw [answers, h]
    simp only [List.foldl_nil, List.map_cons, ih]

/-- Behind a switch of protocols everything is left over. -/
theorem answers_of_switched {r : Reader kind} (h : r.state = .switched) (m : Message)
    {pieces : List Bytes} (hne : ∀ piece ∈ pieces, piece ≠ []) :
    m.answers r pieces = pieces.map fun piece => .error (.unconsumed 0 piece.length) := by
  rw [answers_of_stopped (fun input => Reader.feed_of_switched h input)]
  apply List.map_congr_left
  intro piece hpiece
  exact m.answer_of_less (List.length_pos_iff.mpr (hne piece hpiece))

/-- A call that fails is answered with its error. -/
theorem error_mem_answers {r : Reader kind} {pieces : List Bytes} {error : Error}
    (h : .error error ∈ (r.feedAll pieces).results) (m : Message) :
    .error error ∈ m.answers r pieces := by
  induction pieces generalizing r m with
  | nil => cases h
  | cons piece pieces ih =>
    rw [answers]
    rcases List.mem_cons.mp h with hfirst | hlater
    · rw [← hfirst]
      exact List.mem_cons_self
    · exact List.mem_cons_of_mem _ (ih hlater _)

/-- When every call consumes its piece, every answer says how far the message has come. -/
theorem answers_of_wholes {r : Reader kind} {pieces : List Bytes}
    (h : (r.feedAll pieces).results = pieces.map fun piece => .ok piece.length) (m : Message) :
    (∀ answer ∈ m.answers r pieces, ∃ receipt, answer = .ok receipt) ∧
      (pieces ≠ [] → (m.answers r pieces).getLast? =
        some (.ok ((r.feedAll pieces).events.foldl receive m).phase.receipt)) := by
  induction pieces generalizing r m with
  | nil => exact ⟨by simp [answers], fun hne => absurd rfl hne⟩
  | cons piece pieces ih =>
    rw [Reader.feedAll, List.map_cons] at h
    injection h with hfirst hlater
    obtain ⟨hanswers, hlast⟩ := ih hlater ((r.feed piece).events.foldl receive m)
    rw [answers, hfirst, answer_of_whole]
    refine ⟨?_, fun _ => ?_⟩
    · intro answer hmem
      rcases List.mem_cons.mp hmem with hanswer | hmem
      · exact ⟨_, hanswer⟩
      · exact hanswers answer hmem
    · by_cases hnil : pieces = []
      · subst hnil
        simp [answers, Reader.feedAll]
      · obtain ⟨next, pieces, rfl⟩ := List.exists_cons_of_ne_nil hnil
        rw [Reader.feedAll, List.foldl_append]
        exact hlast hnil

/-! ## Answers to pieces and to the stream -/

/-- How the answers to the pieces of a stream agree with the answer to the stream in one call. -/
inductive AnswersAgree (pieces : List Bytes) (answers : List (Except Error Receipt)) :
    Except Error Receipt → Prop where
  /-- The stream is consumed. Every piece is, and the last one is answered as the stream is. -/
  | consumed (receipts : List Receipt) (last : Receipt)
      (hlength : receipts.length + 1 = pieces.length)
      (hanswers : answers = receipts.map .ok ++ [.ok last]) : AnswersAgree pieces answers (.ok last)
  /-- There is an error in the stream. The pieces before it are consumed, and it is the answer to
  the piece that it is found in and to all pieces behind that. -/
  | failed (before : List Bytes) (piece : Bytes) (later : List Bytes) (receipts : List Receipt)
      (error : Error) (hpieces : pieces = before ++ piece :: later)
      (hbefore : receipts.length = before.length) (hfinds : Reader.FindsError error)
      (hanswers : answers = receipts.map .ok ++ .error error :: later.map fun _ => .error error) :
      AnswersAgree pieces answers (.error error)
  /-- The stream switches protocols before it ends. The pieces that end before that, or there, are
  consumed, the piece that holds the first byte behind it is consumed up to there, and nothing is
  consumed of the pieces that follow. -/
  | leftOver (before : List Bytes) (piece : Bytes) (later : List Bytes) (receipts : List Receipt)
      (consumed : Nat) (hpieces : pieces = before ++ piece :: later)
      (hbefore : receipts.length = before.length) (hless : consumed < piece.length)
      (hanswers : answers = receipts.map .ok ++ .error (.unconsumed consumed piece.length) ::
        later.map fun piece => .error (.unconsumed 0 piece.length)) :
      AnswersAgree pieces answers
        (.error (.unconsumed (before.flatten.length + consumed) pieces.flatten.length))

/-- A piece more in front, which is consumed. -/
theorem AnswersAgree.cons {pieces : List Bytes} {answers : List (Except Error Receipt)}
    {answer : Except Error Receipt} (h : AnswersAgree pieces answers answer) (piece : Bytes)
    (receipt : Receipt) :
    AnswersAgree (piece :: pieces) (.ok receipt :: answers) (answerBehind piece.length answer) := by
  cases h with
  | consumed receipts last hlength hanswers =>
    exact .consumed (receipt :: receipts) last (by simp [hlength]) (by simp [hanswers])
  | failed before next later receipts error hpieces hbefore hfinds hanswers =>
    rw [answerBehind_of_findsError _ hfinds]
    exact .failed (piece :: before) next later (receipt :: receipts) error (by simp [hpieces])
      (by simp [hbefore]) hfinds (by simp [hanswers])
  | leftOver before next later receipts consumed hpieces hbefore hless hanswers =>
    have hagree : AnswersAgree (piece :: pieces) (.ok receipt :: answers) (.error (.unconsumed
        ((piece :: before).flatten.length + consumed) (piece :: pieces).flatten.length)) :=
      .leftOver (piece :: before) next later (receipt :: receipts) consumed (by simp [hpieces])
        (by simp [hbefore]) hless (by simp [hanswers])
    simpa [answerBehind, Nat.add_assoc] using hagree

/-- **The answers to the pieces agree with the answer to the stream**, whatever came before. -/
theorem answers_agree {r : Reader kind} (h : r.Reachable) (m : Message) {pieces : List Bytes}
    (hsome : pieces ≠ []) (hne : ∀ piece ∈ pieces, piece ≠ []) :
    let whole := r.consume pieces.flatten
    AnswersAgree pieces (m.answers r pieces)
      ((whole.events.foldl receive m).answer whole.result pieces.flatten.length) := by
  induction pieces generalizing r m with
  | nil => exact absurd rfl hsome
  | cons piece later ih =>
    intro whole
    have hpiece : piece ≠ [] := hne piece (by simp)
    have hlater : ∀ piece ∈ later, piece ≠ [] := fun piece hmem => hne piece (by simp [hmem])
    have hfeed : r.feed piece = r.consume piece := Reader.feed_of_ne_nil hpiece
    have hcut := Reader.consume_append h.sound piece later.flatten
    have hmessage := Event.foldl_congr_of_joinBodies receive_body hcut.events m
    dsimp only [whole]
    rw [List.flatten_cons, hmessage, hcut.result, answers, hfeed]
    cases hfirst : (r.consume piece).result with
    | error error =>
      have hfailed := Reader.consume_failsForGood r piece error hfirst
      have hstopped := answers_of_stopped (Reader.feed_of_failed hfailed)
      rw [Reader.Progress.andThen_of_error hfirst, hfirst, hstopped]
      exact .failed [] piece later [] error rfl rfl (h.findsError_of_consume hfirst) rfl
    | ok n =>
      obtain ⟨hle, hleft⟩ := (Reader.feedsExactly h.sound hpiece).count n (hfeed ▸ hfirst)
      have hrest := h.feed piece
      rw [hfeed] at hrest hleft
      rw [Reader.Progress.andThen_of_ok hfirst]
      by_cases hless : n < piece.length
      · have hswitched : (r.consume piece).reader.state = .switched := by
          simpa [Reader.isSwitched] using hleft hless
        have hwhole : n < (piece ++ later.flatten).length := by
          rw [List.length_append]
          omega
        rw [answers_of_switched hswitched _ hlater, Reader.consume_of_switched hswitched,
          answer_of_less _ hless]
        dsimp only [Reader.Progress.none, Except.map]
        rw [Nat.add_zero, answer_of_less _ hwhole]
        have hagree : AnswersAgree (piece :: later) (.error (.unconsumed n piece.length) ::
            later.map fun piece => .error (.unconsumed 0 piece.length)) _ :=
          .leftOver [] piece later [] n rfl rfl hless rfl
        rwa [List.flatten_nil, List.length_nil, Nat.zero_add] at hagree
      · obtain rfl : n = piece.length := by omega
        rw [answer_of_whole, List.foldl_append, List.length_append,
          answer_map_add _ fun error herror => hrest.findsError_of_consume herror]
        by_cases hnone : later = []
        · subst hnone
          rw [List.flatten_nil, Reader.consume_nil]
          exact .consumed [] _ rfl rfl
        · exact (ih hrest _ hnone hlater).cons piece _

end HttpWire.Message
