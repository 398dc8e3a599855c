import HttpWire.Proofs.Receiver
import HttpWire.Response
/-!
# Receiving a response

What the parts of a response owe to the events that are received. The message fills up on its own,
and the status is that of the last complete message. Parsing the pieces of a stream one after
another takes in the events of all the calls.
-/

namespace HttpWire.Response

theorem parse_eq (r : Response) (input : Bytes) :
    r.parse input =
      let progress := r.reader.feed input
      let received := progress.events.foldl receive { r with reader := progress.reader }
      (received, received.message.answer progress.result input.length) := by
  obtain ⟨status, message, reader⟩ := r
  rfl

/-! ## Events -/

theorem message_receive (r : Response) (event : Event) :
    (r.receive event).message = r.message.receive event := by
  cases event <;> rfl

/-- Two pieces of a body are as good as both in one. -/
theorem receive_body (r : Response) (a b : Bytes) :
    (r.receive (.body a)).receive (.body b) = r.receive (.body (a ++ b)) :=
  congrArg (fun message => { r with message }) (r.message.receive_body a b)

/-- Responses are receivers. -/
def receiver : Receiver .response Response where
  message := message
  reader := reader
  withReader r reader := { r with reader }
  receive := receive
  parse := parse
  message_receive := message_receive
  reader_receive r event := by cases event <;> rfl
  withReader_receive r event new := by cases event <;> rfl
  receive_body := receive_body
  message_withReader _ _ := rfl
  reader_withReader _ _ := rfl
  withReader_reader _ := rfl
  withReader_withReader _ _ _ := rfl
  parse_eq := parse_eq

theorem message_foldl_receive (r : Response) (events : List Event) :
    (events.foldl receive r).message = events.foldl Message.receive r.message :=
  receiver.message_foldl r events

theorem reader_foldl_receive (r : Response) (events : List Event) :
    (events.foldl receive r).reader = r.reader :=
  receiver.reader_foldl r events

/-- Parses the pieces of a stream in turn. No error keeps the later pieces back. -/
def parseAll (r : Response) (pieces : List Bytes) : Response × List (Except Error Receipt) :=
  receiver.parseAll r pieces

/-- What parsing the pieces takes in is what their calls report. -/
theorem fst_parseAll (r : Response) (pieces : List Bytes) :
    (r.parseAll pieces).1 =
      (r.reader.feedAll pieces).events.foldl receive
        { r with reader := (r.reader.feedAll pieces).reader } :=
  receiver.fst_parseAll r pieces

/-- When every call consumes its piece, every answer says how far the message has come. -/
theorem answers_parseAll {r : Response} {pieces : List Bytes}
    (h : (r.reader.feedAll pieces).results = pieces.map fun piece => .ok piece.length) :
    (∀ answer ∈ (r.parseAll pieces).2, ∃ receipt, answer = .ok receipt) ∧
      (pieces ≠ [] → (r.parseAll pieces).2.getLast? =
        some (.ok (r.parseAll pieces).1.message.phase.receipt)) :=
  receiver.answers_parseAll h

end HttpWire.Response
