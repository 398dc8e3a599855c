import HttpWire.Proofs.Reader.Between
import HttpWire.Proofs.Response.Forward
/-!
# Responses that are used again

A response that has received messages and was then changed by hand takes the next messages in like a
new one, as long as its reader is between messages: what was there before leaves no trace, neither a
field that was cleared nor a body.
-/

namespace HttpWire.Response

/-- The responses that parsing and setting lead to from a new one, with what their readers have
reported. Whatever is set, the reader keeps its place. -/
inductive Handled (limits : Limits) : Response → List Event → Prop where
  | new : Handled limits (withLimits limits) []
  | parse {r : Response} {events : List Event} (h : Handled limits r events) (input : Bytes) :
      Handled limits (r.parse input).1 (events ++ (r.reader.feed input).events)
  | set {r : Response} {events : List Event} (h : Handled limits r events) (status : UInt16)
      (headers : Headers) (body : Array UInt8) :
      Handled limits { r with status, message := { r.message with headers, body } } events

section
variable {limits : Limits} {r : Response} {events : List Event} (h : Handled limits r events)
include h

theorem Handled.used : Reader.Used r.reader events := by
  induction h with
  | new => exact .new limits
  | parse h input ih =>
    rw [parse_eq]
    dsimp only
    rw [reader_foldl_receive]
    exact .feed ih input
  | set h status headers body ih => exact ih

theorem Handled.limits_eq : r.reader.limits = limits := by
  induction h with
  | new => rfl
  | parse h input ih =>
    rw [parse_eq]
    dsimp only
    rw [reader_foldl_receive, ← ih]
    exact Reader.limits_feed _ input
  | set h status headers body ih => exact ih

/-- **Between messages its reader is like a new one.** -/
theorem Handled.alike (hbetween : r.reader.Balanced events) : r.reader.Alike { limits } := by
  have halike := Reader.alike_of_idle (h.used.sound_follows.2.idle hbetween)
  rwa [h.limits_eq] at halike

end

/-- What is received last is received alike by all responses. -/
theorem receive_completes {limits : Limits} {head : Head} {start : Start} {framing : Framing}
    {pieces : List Bytes} {events : List Event}
    (h : Reader.Completes .response limits head start framing pieces events) (r s : Response) :
    (events.foldl receive r).status = (events.foldl receive s).status ∧
      (events.foldl receive r).message = (events.foldl receive s).message := by
  rw [status_of_completes h, status_of_completes h, message_foldl_receive, message_foldl_receive]
  exact ⟨rfl, h.foldl_receive_congr r.message s.message⟩

/-- **A response that is used again.** Whatever a response has parsed without an error and without a
switch of protocols, and whatever its status, fields and body have been set to since, if every
message that has begun in it has been completed, then it parses complete messages as a new response
with its limits does, and has the same status, fields and body afterwards. They are those of the
last of these messages, and its fields are inserted in their order, as text, into no others. -/
theorem parse_handled {limits : Limits} {r fresh : Response} {events : List Event} {w : Bytes}
    (h : Handled limits r events) (hbetween : r.reader.Balanced events)
    (hfresh : (withLimits limits).parse w = (fresh, .ok .complete)) :
    ∃ reused, r.parse w = (reused, .ok .complete) ∧
      reused.status = fresh.status ∧ reused.message = fresh.message ∧
      ∃ head start framing pieces,
        Reader.Completes .response limits head start framing pieces
            (({ limits } : Reader .response).feed w).events ∧
          reused.status = start.status ∧
          reused.message.headers = .insertFields {} head.fields ∧
          reused.message.body = pieces.flatten.toArray := by
  have hcomplete : ((withLimits limits).parse w).2 = .ok .complete := by rw [hfresh]
  obtain ⟨head, start, framing, pieces, hlast, hstatus, hheaders, hbody⟩ :=
    received_of_complete hcomplete
  have hnew : (withLimits limits).reader = { limits } := rfl
  rw [hfresh] at hstatus hheaders hbody
  rw [parse_eq, hnew] at hfresh
  rw [hnew] at hlast
  injection hfresh with hreceived hanswer
  -- The readers are alike, so both responses receive the same events.
  have halike := (h.alike hbetween).feed w
  obtain ⟨hsameStatus, hsameMessage⟩ := receive_completes hlast
    { r with reader := (r.reader.feed w).reader }
    { withLimits limits with reader := (({ limits } : Reader .response).feed w).reader }
  rw [hreceived] at hsameStatus hsameMessage hanswer
  have hparse : r.parse w = (((({ limits } : Reader .response).feed w).events.foldl receive
      { r with reader := (r.reader.feed w).reader }), .ok .complete) := by
    rw [parse_eq]
    dsimp only
    rw [halike.events, halike.result, hsameMessage, hanswer]
  refine ⟨_, hparse, hsameStatus, hsameMessage, head, start, framing, pieces, hlast,
    hsameStatus.trans hstatus, ?_, ?_⟩
  · rw [hsameMessage]
    exact hheaders
  · rw [hsameMessage]
    exact hbody

/-- A response with a field and a body. -/
def firstWire : Bytes := Utf8.encode "HTTP/1.1 404 \r\nX: y\r\nContent-Length: 1\r\n\r\na"

/-- Two responses in a row. The last one has a field twice, in two spellings. -/
def laterWire : Bytes :=
  Utf8.encode "HTTP/1.1 100 \r\nX: y\r\n\r\n" ++
    Utf8.encode "HTTP/1.1 201 \r\nA: b\r\ncontent-length: 2\r\na: c\r\n\r\nok"

/-- A new response that has received the first one, and was then changed: its fields are cleared,
some others are set, and so is the body. -/
def changedResponse : Response :=
  let r := ((withLimits {}).parse firstWire).1
  { r with
    status := 7
    message := { r.message with
      headers := ⟨⟨[("content-length", none), ("X", none), ("A", some "z")], by decide⟩⟩
      body := #[0x00, 0x01] } }

theorem changedResponse_handled :
    let events := (({} : Reader .response).feed firstWire).events
    (Handled {} changedResponse events ∧ changedResponse.reader.Balanced events ∧
        ((withLimits {}).parse laterWire).2 = .ok .complete) ∧
      ∃ reused, changedResponse.parse laterWire = (reused, .ok .complete) ∧ reused.status = 201 ∧
        reused.message.headers.entries = [("A", some "c"), ("content-length", some "2")] ∧
        reused.message.body = #[0x6F, 0x6B] := by
  intro events
  have hhandled : Handled {} changedResponse events :=
    .set (.parse .new firstWire) 7 _ _
  have hidle : changedResponse.reader.state = .idle := by decide +kernel
  have hbetween : changedResponse.reader.Balanced events := by
    constructor
    · intro error herror
      rw [hidle] at herror
      cases herror
    · decide +kernel
    · decide +kernel
  have hcomplete : ((withLimits {}).parse laterWire).2 = .ok .complete := by decide +kernel
  obtain ⟨reused, hparse, hstatus, hmessage, -⟩ :=
    parse_handled hhandled hbetween (Prod.ext rfl hcomplete)
  refine ⟨⟨hhandled, hbetween, hcomplete⟩, reused, hparse, ?_, ?_, ?_⟩
  · rw [hstatus]
    decide +kernel
  · rw [hmessage]
    decide +kernel
  · rw [hmessage]
    decide +kernel

end HttpWire.Response
