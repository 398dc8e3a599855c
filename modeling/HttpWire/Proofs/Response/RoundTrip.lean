import HttpWire.Proofs.Message.Receive
import HttpWire.Proofs.Reader.Boundary
import HttpWire.Proofs.Reader.Consumption
import HttpWire.Proofs.Response.Receive
import HttpWire.Proofs.Response.Written
/-!
# Responses read back

A response that is written and received again, in one piece or in many, is the same response: the
same status, fields and body, with the length of the body among the fields.
-/

namespace HttpWire.Response

/-- What is received of a whole message. -/
theorem foldl_receive_messageEvents (r : Response) (line : StartLine)
    (entries : List (String × String)) (start : Start) (body : Bytes) :
    ∃ pendingName,
      (Reader.messageEvents ⟨line, entries.map Field.ofEntry⟩ start body).foldl receive r =
        { r with
          status := start.status
          message :=
            { headers := entries.foldl (fun headers entry => headers.insert entry.1 entry.2) {}
              body := body.toArray
              phase := .complete
              pendingName } } := by
  obtain ⟨pendingName, hfilled⟩ :=
    Message.foldl_receive_messageEvents r.message line entries start body
  refine ⟨pendingName, ?_⟩
  rw [← message_foldl_receive] at hfilled
  have hreader := reader_foldl_receive r
    (Reader.messageEvents ⟨line, entries.map Field.ofEntry⟩ start body)
  have hstatus : ((Reader.messageEvents ⟨line, entries.map Field.ofEntry⟩ start body).foldl
      receive r).status = start.status := by
    rw [Reader.messageEvents, List.foldl_append]
    rfl
  rw [← hstatus, ← hfilled, ← hreader]

/-- What reading back a written response reports, if its head reads back and frames its body. After
a switch of protocols the reader has stopped, but there is nothing left to read. -/
theorem FramesBody.consume_bytes {r : Response} (h : r.FramesBody) {limits : Limits}
    (hparse : Head.parse .response limits.maxFields r.headBytes = .done r.writtenHead [])
    (hlength : r.headBytes.length ≤ limits.maxHeadLength) :
    ∃ reader, ({ limits } : Reader .response).consume r.bytes =
      ⟨Reader.messageEvents r.writtenHead r.writtenStart r.message.body.toList, reader,
        .ok r.bytes.length⟩ := by
  rw [bytes_eq]
  rcases h with hframing | ⟨hframing, hempty⟩
  · rw [← Array.length_toList] at hframing
    have haccepted : Reader.Accepted .response limits r.headBytes r.writtenHead r.writtenStart
        (.length r.message.body.toList.length) := ⟨hparse, hlength, rfl, hframing⟩
    have hconsume := Reader.consume_message (r := { limits }) rfl haccepted []
    rw [List.append_nil, Reader.consume_nil] at hconsume
    refine ⟨{ limits, start := r.writtenStart }, ?_⟩
    rw [hconsume]
    simp [Reader.Progress.behind, Reader.Progress.none, Except.map]
  · have haccepted : Reader.Accepted .response limits r.headBytes r.writtenHead r.writtenStart
        .protocolSwitch := ⟨hparse, hlength, rfl, hframing⟩
    have hconsume : ({ limits } : Reader .response).consume (r.headBytes ++ []) =
        ⟨Reader.messageEvents r.writtenHead r.writtenStart [], ⟨limits, .switched, r.writtenStart⟩,
          .ok r.headBytes.length⟩ := Reader.consume_switch rfl haccepted rfl
    refine ⟨⟨limits, .switched, r.writtenStart⟩, ?_⟩
    rw [hempty, hconsume]
    simp

/-- What is received of a written response in any pieces. -/
theorem IsWritable.fst_parseAll {r : Response} (h : r.IsWritable) {limits : Limits}
    (hlength : r.headBytes.length ≤ limits.maxHeadLength)
    (hroom : r.message.writtenFields.length ≤ limits.maxFields) {pieces : List Bytes}
    (hne : ∀ piece ∈ pieces, piece ≠ []) (hpieces : pieces.flatten = r.bytes) :
    ∃ pendingName reader, ((withLimits limits).parseAll pieces).1 =
      { status := r.status
        message :=
          { headers := r.message.writtenFields.foldl
              (fun headers entry => headers.insert entry.1 entry.2) {}
            body := r.message.body
            phase := .complete
            pendingName }
        reader } := by
  have hparse := parse_headBytes h.status (fun _ => h.message.isPlain) hroom
  obtain ⟨reader, hconsume⟩ := h.framesBody.consume_bytes hparse hlength
  -- What the calls report is, up to the cuts of the body, what one run would.
  have hcome := Reader.feedAll_flatten (r := (withLimits limits).reader)
    (Reader.State.sound_idle limits) hne
  have hevents : ((withLimits limits).reader.consume pieces.flatten).events =
      Reader.messageEvents r.writtenHead r.writtenStart r.message.body.toList := by
    rw [hpieces]
    exact congrArg Reader.Progress.events hconsume
  obtain ⟨pendingName, hreceived⟩ := foldl_receive_messageEvents
    { withLimits limits with reader := ((withLimits limits).reader.feedAll pieces).reader }
    r.writtenHead.start r.message.writtenFields r.writtenStart r.message.body.toList
  refine ⟨pendingName, ((withLimits limits).reader.feedAll pieces).reader, ?_⟩
  rw [Response.fst_parseAll, hcome.foldl receive_body, hevents]
  exact hreceived

/-- **The round trip of a response.** However what was written of a response is cut into pieces,
parsing them one after another with a new response fails nowhere and ends with a complete message,
with the status of the response, its live fields in their order and spelling with the length of the
body after them, and its body. -/
theorem parseAll_bytes {limits : Limits} {r : Response} (h : r.IsWritable)
    (hlength : r.headBytes.length ≤ limits.maxHeadLength)
    (hroom : r.message.writtenFields.length ≤ limits.maxFields) {pieces : List Bytes}
    (hne : ∀ piece ∈ pieces, piece ≠ []) (hpieces : pieces.flatten = r.bytes) :
    let received := ((withLimits limits).parseAll pieces).1
    let answers := ((withLimits limits).parseAll pieces).2
    (∀ answer ∈ answers, ∃ receipt, answer = .ok receipt) ∧
      answers.getLast? = some (.ok .complete) ∧
      received.status = r.status ∧
      received.message.headers.entries =
        (r.message.headers.live ++ [(Message.lengthName, Nat.repr r.message.body.size)]).map
          (fun field => (field.1, some field.2)) ∧
      received.message.body = r.message.body := by
  intro received answers
  have hparse := parse_headBytes h.status (fun _ => h.message.isPlain) hroom
  obtain ⟨reader, hconsume⟩ := h.framesBody.consume_bytes hparse hlength
  have hwhole : ((withLimits limits).reader.consume pieces.flatten).result =
      .ok pieces.flatten.length := by
    rw [hpieces]
    exact congrArg Reader.Progress.result hconsume
  have hresults := Reader.results_of_whole (Reader.State.sound_idle limits) hne hwhole
  obtain ⟨hanswers, hlast⟩ := answers_parseAll hresults
  have hsome : pieces ≠ [] := by
    rintro rfl
    rw [bytes_eq, headBytes] at hpieces
    simp [Message.lineBreak] at hpieces
  obtain ⟨pendingName, reader', hreceived⟩ := h.fst_parseAll hlength hroom hne hpieces
  have hentries : received.message.headers.entries =
      r.message.writtenFields.map fun field => (field.1, some field.2) := by
    show ((withLimits limits).parseAll pieces).1.message.headers.entries = _
    rw [hreceived]
    exact Headers.entries_foldl_insert r.message.distinct_writtenFields
  rw [h.message.writtenFields_eq] at hentries
  refine ⟨hanswers, ?_, ?_, hentries, ?_⟩
  · rw [hlast hsome, hreceived]
    rfl
  · show ((withLimits limits).parseAll pieces).1.status = r.status
    rw [hreceived]
  · show ((withLimits limits).parseAll pieces).1.message.body = r.message.body
    rw [hreceived]

/-- A response with a cleared length of its own, an empty value, a text beyond ASCII and the end
of a head in its body. -/
def goneResponse : Response where
  status := 410
  message :=
    { headers := ⟨⟨[("content-length", none), ("X-Trace", some "a\tb"), ("Via", some ""),
        ("transfer-encoding", none), ("Reason", some "perdu à jamais")], by decide⟩⟩
      body := #[0x0D, 0x0A, 0x0D, 0x0A, 0x00] }

/-- What it writes, cut inside a field name and inside the body. -/
def gonePieces : List Bytes :=
  [goneResponse.bytes.take 20, (goneResponse.bytes.drop 20).take 64, goneResponse.bytes.drop 84]

theorem gonePieces_round_trip :
    (goneResponse.IsWritable ∧
      goneResponse.headBytes.length ≤ (81920 : Nat) ∧
      goneResponse.message.writtenFields.length ≤ (64 : Nat) ∧
      (∀ piece ∈ gonePieces, piece ≠ []) ∧
      gonePieces.flatten = goneResponse.bytes) ∧
    ((withLimits {}).parseAll gonePieces).2.getLast? = some (.ok .complete) ∧
      ((withLimits {}).parseAll gonePieces).1.status = 410 ∧
      ((withLimits {}).parseAll gonePieces).1.message.headers.entries =
        [("X-Trace", some "a\tb"), ("Via", some ""), ("Reason", some "perdu à jamais"),
          ("Content-Length", some "5")] ∧
      ((withLimits {}).parseAll gonePieces).1.message.body = #[0x0D, 0x0A, 0x0D, 0x0A, 0x00] := by
  have hwritable : goneResponse.IsWritable := by decide +kernel
  have hlength : goneResponse.headBytes.length ≤ (81920 : Nat) := by decide +kernel
  have hroom : goneResponse.message.writtenFields.length ≤ (64 : Nat) := by decide +kernel
  have hne : ∀ piece ∈ gonePieces, piece ≠ [] := by decide +kernel
  have hpieces : gonePieces.flatten = goneResponse.bytes := by decide +kernel
  obtain ⟨-, hlast, hstatus, hentries, hbody⟩ :=
    @parseAll_bytes {} goneResponse hwritable hlength hroom gonePieces hne hpieces
  refine ⟨⟨hwritable, hlength, hroom, hne, hpieces⟩, hlast, hstatus, ?_, hbody⟩
  rw [hentries]
  decide +kernel

end HttpWire.Response
