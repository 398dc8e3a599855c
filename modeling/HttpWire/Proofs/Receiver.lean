import HttpWire.Proofs.Message.Answers
/-!
# Receivers

What requests and responses have in common when they are received. Either holds a reader and a
message, and what the reader reports goes to the message and leaves the reader alone. So what comes
of many calls comes of what all of them report, however the stream is cut.
-/

namespace HttpWire

/-- What is filled from a stream: it holds a reader and a message, takes in events, and parses by
taking in what its reader reports of some input. -/
structure Receiver (kind : Kind) (σ : Type) where
  message : σ → Message
  reader : σ → Reader kind
  withReader : σ → Reader kind → σ
  receive : σ → Event → σ
  parse : σ → Bytes → σ × Except Error Receipt
  /-- Every event reaches the message. -/
  message_receive : ∀ s event, message (receive s event) = (message s).receive event
  /-- The reader is left alone. -/
  reader_receive : ∀ s event, reader (receive s event) = reader s
  /-- The reader has no part in what is received. -/
  withReader_receive : ∀ s event new,
    withReader (receive s event) new = receive (withReader s new) event
  /-- Two pieces of a body are as good as both in one. -/
  receive_body : ∀ s a b, receive (receive s (.body a)) (.body b) = receive s (.body (a ++ b))
  message_withReader : ∀ s new, message (withReader s new) = message s
  reader_withReader : ∀ s new, reader (withReader s new) = new
  withReader_reader : ∀ s, withReader s (reader s) = s
  withReader_withReader : ∀ s old new, withReader (withReader s old) new = withReader s new
  parse_eq : ∀ s input, parse s input =
    let progress := (reader s).feed input
    let received := progress.events.foldl receive (withReader s progress.reader)
    (received, (message received).answer progress.result input.length)

namespace Receiver

variable {kind : Kind} {σ : Type} (R : Receiver kind σ)

/-! ## Many events -/

theorem message_foldl (s : σ) (events : List Event) :
    R.message (events.foldl R.receive s) = events.foldl Message.receive (R.message s) :=
  (List.foldl_hom R.message fun s event => (R.message_receive s event).symm).symm

theorem reader_foldl (s : σ) (events : List Event) :
    R.reader (events.foldl R.receive s) = R.reader s := by
  induction events generalizing s with
  | nil => rfl
  | cons event events ih => rw [List.foldl_cons, ih, R.reader_receive]

theorem withReader_foldl (s : σ) (events : List Event) (new : Reader kind) :
    R.withReader (events.foldl R.receive s) new = events.foldl R.receive (R.withReader s new) :=
  (List.foldl_hom (R.withReader · new) fun s event =>
    (R.withReader_receive s event new).symm).symm

/-! ## One call -/

theorem message_parse (s : σ) (input : Bytes) :
    R.message (R.parse s input).1 =
      ((R.reader s).feed input).events.foldl Message.receive (R.message s) := by
  rw [R.parse_eq]
  dsimp only
  rw [R.message_foldl, R.message_withReader]

theorem reader_parse (s : σ) (input : Bytes) :
    R.reader (R.parse s input).1 = ((R.reader s).feed input).reader := by
  rw [R.parse_eq]
  dsimp only
  rw [R.reader_foldl, R.reader_withReader]

theorem snd_parse (s : σ) (input : Bytes) :
    (R.parse s input).2 =
      (((R.reader s).feed input).events.foldl Message.receive (R.message s)).answer
        ((R.reader s).feed input).result input.length := by
  rw [R.parse_eq]
  dsimp only
  rw [R.message_foldl, R.message_withReader]

/-- Parses some input if the call to the reader comes back. -/
def parse? (s : σ) (input : Bytes) : Option (σ × Except Error Receipt) :=
  if (R.reader s).lacksRoom input then none else some (R.parse s input)

/-! ## Many calls -/

/-- Parses the pieces of a stream in turn. No error keeps the later pieces back. -/
def parseAll (s : σ) : List Bytes → σ × List (Except Error Receipt)
  | [] => (s, [])
  | piece :: pieces =>
    let first := R.parse s piece
    let later := parseAll first.1 pieces
    (later.1, first.2 :: later.2)

/-- What parsing the pieces takes in is what their calls report. -/
theorem fst_parseAll (s : σ) (pieces : List Bytes) :
    (R.parseAll s pieces).1 =
      ((R.reader s).feedAll pieces).events.foldl R.receive
        (R.withReader s ((R.reader s).feedAll pieces).reader) := by
  induction pieces generalizing s with
  | nil => exact (R.withReader_reader s).symm
  | cons piece pieces ih =>
    rw [parseAll]
    dsimp only
    rw [ih, R.reader_parse, R.parse_eq]
    dsimp only
    rw [R.withReader_foldl, R.withReader_withReader, ← List.foldl_append]
    rfl

/-- **The answers** are those that its message gives. -/
theorem snd_parseAll (s : σ) (pieces : List Bytes) :
    (R.parseAll s pieces).2 = (R.message s).answers (R.reader s) pieces := by
  induction pieces generalizing s with
  | nil => rfl
  | cons piece pieces ih =>
    rw [parseAll, Message.answers]
    dsimp only
    rw [ih, R.message_parse, R.reader_parse, R.snd_parse]

theorem message_parseAll (s : σ) (pieces : List Bytes) :
    R.message (R.parseAll s pieces).1 =
      ((R.reader s).feedAll pieces).events.foldl Message.receive (R.message s) := by
  rw [R.fst_parseAll, R.message_foldl, R.message_withReader]

theorem reader_parseAll (s : σ) (pieces : List Bytes) :
    R.reader (R.parseAll s pieces).1 = ((R.reader s).feedAll pieces).reader := by
  rw [R.fst_parseAll, R.reader_foldl, R.reader_withReader]

/-- A call to the reader that fails is answered with its error. -/
theorem error_mem_parseAll {s : σ} {pieces : List Bytes} {error : Error}
    (h : .error error ∈ ((R.reader s).feedAll pieces).results) :
    .error error ∈ (R.parseAll s pieces).2 := by
  rw [R.snd_parseAll]
  exact Message.error_mem_answers h _

/-- When every call consumes its piece, every answer says how far the message has come. -/
theorem answers_parseAll {s : σ} {pieces : List Bytes}
    (h : ((R.reader s).feedAll pieces).results = pieces.map fun piece => .ok piece.length) :
    (∀ answer ∈ (R.parseAll s pieces).2, ∃ receipt, answer = .ok receipt) ∧
      (pieces ≠ [] → (R.parseAll s pieces).2.getLast? =
        some (.ok (R.message (R.parseAll s pieces).1).phase.receipt)) := by
  rw [R.snd_parseAll, R.message_parseAll]
  exact Message.answers_of_wholes h _

/-! ## A stream in pieces and in one call -/

section
variable {s : σ} (h : (R.reader s).Reachable) {pieces : List Bytes} (hsome : pieces ≠ [])
  (hne : ∀ piece ∈ pieces, piece ≠ [])
include h hsome hne

/-- **What is received is the same**, whatever was received before. -/
theorem fst_parseAll_eq : (R.parseAll s pieces).1 = (R.parse s pieces.flatten).1 := by
  have hcome := Reader.feedAll_flatten h.sound hne
  rw [R.fst_parseAll, hcome.reader, hcome.foldl R.receive_body, R.parse_eq,
    (R.reader s).feed_flatten hsome hne]

/-- **And the answers agree.** -/
theorem answersAgree_parseAll :
    Message.AnswersAgree pieces (R.parseAll s pieces).2 (R.parse s pieces.flatten).2 := by
  rw [R.snd_parseAll, R.snd_parse, (R.reader s).feed_flatten hsome hne]
  exact Message.answers_agree h _ hsome hne

end

end Receiver

end HttpWire
