import HttpWire.Reader.Basic
import HttpWire.Head.Grammar
import HttpWire.Head.Ending
/-!
# Feeding a reader

A call hands the reader the next stretch of input, or none at all to say that the input has
ended. The reader takes as many steps as the input lasts for. A step inside a head buffers input
until the empty line is in and then parses the head at once; a step inside a body reports the
body bytes in the input. What the buffer took beyond the head is read again as what it is.
-/

namespace HttpWire.Reader

variable {kind : Kind}

/-! ## Heads -/

/-- The events of a field line. -/
def fieldEvents (field : Field) : List Event := [.fieldName field.name, .fieldValue field.value]

/-- The events of a head before it counts as complete. -/
def headEvents (head : Head) : List Event :=
  let fields := head.fields.flatMap fieldEvents
  match head.start with
  | .request _ target _ => .target target :: fields
  | .status .. => fields

/-- Acts on a whole head, with which `consumed` bytes of the input are used up. An unknown
method is found before anything is reported, an unsound length after the fields were. -/
def openMessage (r : Reader kind) (events : List Event) (head : Head) (consumed : Nat) :
    Progress kind :=
  match head.start.start with
  | .error error => r.fail events error
  | .ok start =>
    let events := events ++ headEvents head
    match Framing.ofHead kind start head.fields with
    | .error error => r.fail events error
    | .ok framing =>
      let state := State.afterHead framing
      let completion := if state.inBody then [] else [Event.messageComplete start]
      moveTo { r with start } (events ++ .headersComplete start :: completion) state consumed

/-- Waits for more of a head after `buffer` has come, unless the head is too large already. -/
def awaitHead (r : Reader kind) (events : List Event) (buffer : Array UInt8) (consumed : Nat) :
    Progress kind :=
  if r.limits.maxHeadLength ≤ buffer.size then r.fail events .headTooLarge
  else r.moveTo events (.head buffer) consumed

/-- Reads on in a head of which `buffer` has come: takes as much input as a head may have, and
parses what there is when the empty line is among it. That there is room to parse it is assumed
here (see `lacksRoom`). -/
def readHead (r : Reader kind) (events : List Event) (buffer : Array UInt8) (input : Bytes) :
    Progress kind :=
  let taken := input.take (r.limits.maxHeadLength - buffer.size)
  if taken.isEmpty then r.fail events .headTooLarge
  else if Head.completesEnding buffer taken then
    match Head.parse kind r.limits.maxFields (buffer.toList ++ taken) with
    | .done head rest =>
      let headLength := buffer.size + taken.length - rest.length
      r.openMessage events head (headLength - buffer.size)
    | .incomplete => r.awaitHead events (buffer ++ taken) taken.length
    | .failed error => r.fail events error
  else r.awaitHead events (buffer ++ taken) taken.length

/-- Reads on where a message may start. Line breaks before it are skipped. -/
def readStart (r : Reader kind) (input : Bytes) : Progress kind :=
  let breaks := input.takeWhile Byte.isBreak
  if breaks.isEmpty then r.readHead [.messageBegin] #[] input
  else r.moveTo [] .idle breaks.length

/-! ## Bodies -/

/-- Reports that the message is complete, after other events. -/
def complete (r : Reader kind) (events : List Event) (consumed : Nat) : Progress kind :=
  r.moveTo (events ++ [.messageComplete r.start]) .idle consumed

/-- Reads on in a body of which `remaining` bytes are still to come. -/
def readLength (r : Reader kind) (remaining : Nat) (input : Bytes) : Progress kind :=
  let piece := input.take remaining
  if remaining ≤ piece.length then r.complete [.body piece] piece.length
  else r.moveTo [.body piece] (.body (.length (remaining - piece.length))) piece.length

/-- Reads on in a chunked body. -/
def readChunks (r : Reader kind) (decoder : Chunked.Decoder) (input : Bytes) : Progress kind :=
  let decoded := decoder.decode input
  let events := decoded.pieces.map .body
  match decoded.outcome with
  | .more decoder => r.moveTo events (.body (.chunked decoder)) input.length
  | .finished rest => r.complete events (input.length - rest.length)
  | .broken => r.fail events .invalidChunkSize

/-! ## Calls -/

/-- One step on input that is not empty. A reader that has stopped consumes nothing. -/
def step (r : Reader kind) (input : Bytes) : Progress kind :=
  match r with
  | ⟨limits, .head buffer, start⟩ =>
    if buffer.isEmpty then readStart { limits, start } input
    else readHead { limits, start } [] buffer input
  | ⟨limits, .body (.length remaining), start⟩ => readLength { limits, start } remaining input
  | ⟨limits, .body (.chunked decoder), start⟩ => readChunks { limits, start } decoder input
  | ⟨limits, .body .untilEnd, start⟩ =>
    moveTo { limits, start } [.body input] (.body .untilEnd) input.length
  | ⟨limits, .switched, start⟩ => moveTo { limits, start } [] .switched 0
  | ⟨limits, .failed error, start⟩ => fail { limits, start } [] error

/-- Takes steps until the input is used up or a step consumes nothing. The steps before
consumed `consumed` bytes and reported `reported`, last event first. -/
def run (r : Reader kind) (input : Bytes) (consumed : Nat) (reported : List Event) :
    Progress kind :=
  match input with
  | [] => ⟨reported.reverse, r, .ok consumed⟩
  | b :: rest =>
    match r.step (b :: rest) with
    | ⟨events, r, .ok (n + 1)⟩ =>
      run r (rest.drop n) (consumed + (n + 1)) (events.reverse ++ reported)
    | ⟨events, r, .ok 0⟩ => ⟨reported.reverse ++ events, r, .ok consumed⟩
    | ⟨events, r, .error error⟩ => ⟨reported.reverse ++ events, r, .error error⟩
termination_by input.length
decreasing_by simp only [List.length_drop, List.length_cons]; omega

/-- Takes note that the input has ended. That completes a body which lasts until then, and is
an error inside any other message. -/
def finish (r : Reader kind) : Progress kind :=
  match r.state with
  | .head buffer => if buffer.isEmpty then r.moveTo [] .idle 0 else r.fail [] .unexpectedEnd
  | .body .untilEnd => r.complete [] 0
  | .body _ => r.fail [] .unexpectedEnd
  | .switched => r.moveTo [] .switched 0
  | .failed error => r.fail [] error

/-- Feeds the next stretch of input; an empty one says that the input has ended. -/
def feed (r : Reader kind) (input : Bytes) : Progress kind :=
  if input.isEmpty then r.finish else r.run input 0 []

end HttpWire.Reader
