import HttpWire.Proofs.Reader.Consumption
import HttpWire.Proofs.Reader.Whole
import HttpWire.Proofs.Response.Written
/-!
# Responses in a row

Responses that are written one behind the other are read as they are written, one by one, as long as
each of them has a body only with a status that allows for one: the writer gives the length of every
body, while the reader does not look for one where the status excludes it.
-/

namespace HttpWire

/-! ## What a report delivers -/

/-- What was reported so far: the body of the message that came last, and each message that was
completed, with its status and its body. -/
structure Deliveries where
  body : Bytes := []
  messages : List (UInt16 × Bytes) := []

namespace Deliveries

/-- Takes note of an event. -/
def note (d : Deliveries) : Event → Deliveries
  | .messageBegin => { d with body := [] }
  | .body piece => { d with body := d.body ++ piece }
  | .messageComplete start => { d with messages := d.messages ++ [(start.status, d.body)] }
  | _ => d

theorem note_body (d : Deliveries) (a b : Bytes) :
    (d.note (.body a)).note (.body b) = d.note (.body (a ++ b)) := by
  simp [note]

theorem foldl_note_fields (d : Deliveries) (fields : List Field) :
    (fields.flatMap Reader.fieldEvents).foldl note d = d := by
  induction fields with
  | nil => rfl
  | cons field fields ih =>
    rw [List.flatMap_cons, List.foldl_append]
    exact ih

/-- **A whole message is delivered** with its status and its body. -/
theorem foldl_note_message (d : Deliveries) (head : Head) (start : Start) (body : Bytes) :
    (Reader.messageEvents head start body).foldl note d =
      { body, messages := d.messages ++ [(start.status, body)] } := by
  obtain ⟨line, fields⟩ := head
  have hfields := foldl_note_fields { d with body := [] } fields
  have hhead : (Reader.openEvents ⟨line, fields⟩ start).foldl note d = { d with body := [] } := by
    rw [Reader.openEvents, List.foldl_append, List.foldl_append]
    cases line with
    | status version code reason => exact congrArg (note · (.headersComplete start)) hfields
    | request method target version => exact congrArg (note · (.headersComplete start)) hfields
  rw [Reader.messageEvents, List.foldl_append, List.foldl_append, hhead, Reader.bodyEvents]
  by_cases hbody : body = []
  · subst hbody
    rfl
  · rw [if_neg hbody]
    rfl

/-- What was delivered stays so. -/
theorem exists_foldl_note (d : Deliveries) (events : List Event) :
    ∃ later, (events.foldl note d).messages = d.messages ++ later := by
  induction events generalizing d with
  | nil => exact ⟨[], (List.append_nil _).symm⟩
  | cons event events ih =>
    obtain ⟨later, hlater⟩ := ih (d.note event)
    rw [List.foldl_cons, hlater]
    cases event with
    | messageComplete start => exact ⟨_, List.append_assoc ..⟩
    | _ => exact ⟨later, rfl⟩

end Deliveries

/-- The status and the body of each message that a report completes. -/
def Event.delivered (events : List Event) : List (UInt16 × Bytes) :=
  (events.foldl Deliveries.note {}).messages

namespace Response

open Reader (messageEvents)

/-! ## One response -/

/-- What has to hold of a response for its head to be read among others: the status has three
digits, the fields are plain and leave framing and protocol alone, and the head is within the
limits. -/
structure HasPlainHead (limits : Limits) (r : Response) : Prop where
  status : 100 ≤ r.status ∧ r.status ≤ 999
  message : r.message.IsWritable
  stays : ∀ field ∈ r.message.headers.live, sameName field.1 "Upgrade" = false
  length : r.headBytes.length ≤ limits.maxHeadLength
  room : r.message.writtenFields.length ≤ limits.maxFields

instance (limits : Limits) (r : Response) : Decidable (r.HasPlainHead limits) :=
  decidable_of_iff
    ((100 ≤ r.status ∧ r.status ≤ 999) ∧ r.message.IsWritable ∧
      (∀ field ∈ r.message.headers.live, sameName field.1 "Upgrade" = false) ∧
      r.headBytes.length ≤ limits.maxHeadLength ∧
      r.message.writtenFields.length ≤ limits.maxFields)
    ⟨fun ⟨a, b, c, d, e⟩ => ⟨a, b, c, d, e⟩, fun ⟨a, b, c, d, e⟩ => ⟨a, b, c, d, e⟩⟩

/-- Whether a response has a body only with a status that allows for one. -/
def MayHaveBody (r : Response) : Prop :=
  r.status < 200 ∨ r.status = 204 ∨ r.status = 304 → r.message.body = #[]

instance (r : Response) : Decidable r.MayHaveBody := by
  unfold MayHaveBody
  infer_instance

/-- The body that a reader reads behind the head. -/
def bodyRead (r : Response) : Bytes :=
  if Status.isBodyless r.status then [] else r.message.body.toList

namespace HasPlainHead

variable {limits : Limits} {r : Response} (h : r.HasPlainHead limits)
include h

theorem isBodyless_iff :
    Status.isBodyless r.status = true ↔ r.status < 200 ∨ r.status = 204 ∨ r.status = 304 := by
  simp [Status.isBodyless, h.status.1, or_assoc]

/-- What is read is the body, if the response may have it. -/
theorem bodyRead_eq_iff : r.bodyRead = r.message.body.toList ↔ r.MayHaveBody := by
  rw [bodyRead, MayHaveBody, ← h.isBodyless_iff]
  by_cases hbodyless : Status.isBodyless r.status = true
  · rw [if_pos hbodyless]
    constructor
    · intro hnil _
      exact Array.toList_eq_nil_iff.mp hnil.symm
    · intro hnone
      rw [hnone hbodyless]
  · rw [if_neg hbodyless]
    exact ⟨fun _ hbodyless' => absurd hbodyless' hbodyless, fun _ => rfl⟩

/-- **The head frames what is read** behind it. -/
theorem accepted :
    Reader.Accepted .response limits r.headBytes r.writtenHead r.writtenStart
      (.length r.bodyRead.length) where
  parse := parse_headBytes h.status (fun _ => h.message.isPlain) h.room
  fits := h.length
  known := rfl
  sound := by
    have hupgrade : Framing.valuesOf "Upgrade" (r.message.headers.live.map Field.ofEntry) = [] :=
      Framing.valuesOf_ofEntry_eq_nil h.stays
    have hasks : Framing.asksForUpgrade (r.message.writtenFields.map Field.ofEntry) = false := by
      rw [h.message.asksForUpgrade_writtenFields, Framing.asksForUpgrade, hupgrade]
      simp
    rw [Framing.ofHead, writtenHead, h.message.ofFields_writtenFields]
    simp only [Except.map, Framing.switchesProtocol, hasks, Bool.and_false, Bool.false_eq_true,
      if_false, writtenStart, bodyRead]
    by_cases hbodyless : Status.isBodyless r.status = true
    · simp [hbodyless]
    · simp [hbodyless]

/-- What is written of a response and is not read as its body comes behind it. -/
theorem exists_tail :
    ∃ tail, r.bytes = r.headBytes ++ (r.bodyRead ++ tail) ∧ (r.MayHaveBody → tail = []) := by
  rw [bytes_eq]
  by_cases hmay : r.MayHaveBody
  · refine ⟨[], ?_, fun _ => rfl⟩
    rw [h.bodyRead_eq_iff.mpr hmay, List.append_nil]
  · have hbodyless : Status.isBodyless r.status = true := by
      by_contra hallows
      exact hmay fun hexcludes => absurd (h.isBodyless_iff.mpr hexcludes) hallows
    refine ⟨r.message.body.toList, ?_, fun hmay' => absurd hmay' hmay⟩
    rw [bodyRead, if_pos hbodyless, List.nil_append]

end HasPlainHead

/-! ## Many responses -/

/-- A reader between messages reads a response as it is written, if that may have its body. -/
theorem HasPlainHead.consume_bytes {limits : Limits} {r : Response} (h : r.HasPlainHead limits)
    (hmay : r.MayHaveBody) {start : Start} (rest : Bytes) :
    ({ limits, start } : Reader .response).consume (r.bytes ++ rest) =
      .behind (messageEvents r.writtenHead r.writtenStart r.message.body.toList) r.bytes.length
        (Reader.consume { limits, start := r.writtenStart } rest) := by
  have hbody := h.bodyRead_eq_iff.mpr hmay
  have haccepted := h.accepted
  rw [hbody] at haccepted
  rw [bytes_eq, List.append_assoc, List.length_append]
  exact Reader.consume_message rfl haccepted rest

/-- **So it does all responses** that are written one behind the other. -/
theorem consume_flatMap_bytes {limits : Limits} {responses : List Response}
    (hall : ∀ r ∈ responses, r.HasPlainHead limits) (hmay : ∀ r ∈ responses, r.MayHaveBody)
    (start : Start) :
    ∃ last, ({ limits, start } : Reader .response).consume (responses.flatMap bytes) =
      ⟨responses.flatMap fun r =>
          messageEvents r.writtenHead r.writtenStart r.message.body.toList,
        { limits, start := last }, .ok (responses.flatMap bytes).length⟩ := by
  induction responses generalizing start with
  | nil => exact ⟨start, Reader.consume_nil _⟩
  | cons r responses ih =>
    obtain ⟨hr, hall⟩ := List.forall_mem_cons.mp hall
    obtain ⟨hrMay, hmay⟩ := List.forall_mem_cons.mp hmay
    obtain ⟨last, hlater⟩ := ih hall hmay r.writtenStart
    refine ⟨last, ?_⟩
    rw [List.flatMap_cons, List.flatMap_cons, hr.consume_bytes hrMay, hlater, List.length_append]
    rfl

theorem foldl_note_flatMap (d : Deliveries) (responses : List Response) :
    ((responses.flatMap fun r => messageEvents r.writtenHead r.writtenStart
        r.message.body.toList).foldl Deliveries.note d).messages =
      d.messages ++ responses.map fun r => (r.status, r.message.body.toList) := by
  induction responses generalizing d with
  | nil => exact (List.append_nil _).symm
  | cons r responses ih =>
    rw [List.flatMap_cons, List.foldl_append, Deliveries.foldl_note_message, ih, List.map_cons,
      List.append_assoc]
    rfl

/-- **A body that a response may not have is not read**, so the responses are not delivered as they
are. -/
theorem mayHaveBody_of_delivered {limits : Limits} {responses : List Response}
    (hall : ∀ r ∈ responses, r.HasPlainHead limits) (start : Start) (d : Deliveries)
    (h : ((({ limits, start } : Reader .response).consume (responses.flatMap bytes)).events.foldl
        Deliveries.note d).messages =
      d.messages ++ responses.map fun r => (r.status, r.message.body.toList)) :
    ∀ r ∈ responses, r.MayHaveBody := by
  induction responses generalizing start d with
  | nil => simp
  | cons r responses ih =>
    obtain ⟨hr, hall⟩ := List.forall_mem_cons.mp hall
    obtain ⟨tail, hbytes, htail⟩ := hr.exists_tail
    have hconsume : ({ limits, start } : Reader .response).consume
        ((r :: responses).flatMap bytes) =
        .behind (messageEvents r.writtenHead r.writtenStart r.bodyRead)
          (r.headBytes.length + r.bodyRead.length)
          (Reader.consume { limits, start := r.writtenStart }
            (tail ++ responses.flatMap bytes)) := by
      rw [List.flatMap_cons, hbytes, List.append_assoc, List.append_assoc]
      exact Reader.consume_message rfl hr.accepted _
    rw [hconsume, Reader.Progress.behind] at h
    dsimp only at h
    rw [List.foldl_append, Deliveries.foldl_note_message] at h
    obtain ⟨later, hlater⟩ := Deliveries.exists_foldl_note
      ⟨r.bodyRead, d.messages ++ [(r.writtenStart.status, r.bodyRead)]⟩
      (Reader.consume { limits, start := r.writtenStart } (tail ++ responses.flatMap bytes)).events
    -- What is delivered first is the body that was read, so that is the body that was written.
    have hmay : r.MayHaveBody := by
      rw [← hr.bodyRead_eq_iff]
      rw [hlater, List.append_assoc, List.append_cancel_left_eq] at h
      injection h with hfirst
      injection hfirst
    rw [htail hmay, List.nil_append] at h
    refine List.forall_mem_cons.mpr ⟨hmay, ih hall r.writtenStart
      ⟨r.bodyRead, d.messages ++ [(r.writtenStart.status, r.bodyRead)]⟩ ?_⟩
    rw [h, hr.bodyRead_eq_iff.mpr hmay, List.append_assoc]
    rfl

/-- Whether calls on the pieces of a stream deliver these responses and nothing else: each is
completed with its status and its body, every piece is consumed, and the reader is between messages
behind them. -/
structure Deliver (responses : List Response) (pieces : List Bytes)
    (calls : Reader.Calls .response) : Prop where
  delivered : Event.delivered calls.events =
    responses.map fun r => (r.status, r.message.body.toList)
  consumed : calls.results = pieces.map fun piece => .ok piece.length
  between : calls.reader.state = .idle

/-- **Responses can be pipelined** exactly if none of them has a body that its status excludes.
However the stream of what was written of them is cut into pieces, one reader delivers them all, as
they are, one by one, and consumes the whole stream. -/
theorem deliver_iff {limits : Limits} {responses : List Response}
    (hall : ∀ r ∈ responses, r.HasPlainHead limits) {pieces : List Bytes}
    (hne : ∀ piece ∈ pieces, piece ≠ []) (hpieces : pieces.flatten = responses.flatMap bytes) :
    Deliver responses pieces (({ limits } : Reader .response).feedAll pieces) ↔
      ∀ r ∈ responses, r.status < 200 ∨ r.status = 204 ∨ r.status = 304 → r.message.body = #[] := by
  have hsound : ({ limits } : Reader .response).state.Sound limits := Reader.State.sound_idle limits
  have hcome := Reader.feedAll_flatten (r := ({ limits } : Reader .response)) hsound hne
  rw [hpieces] at hcome
  have hdelivered : Event.delivered (({ limits } : Reader .response).feedAll pieces).events =
      Event.delivered (({ limits } : Reader .response).consume (responses.flatMap bytes)).events :=
    congrArg Deliveries.messages (hcome.foldl Deliveries.note_body {})
  constructor
  · intro h
    have hmessages := h.delivered
    rw [hdelivered] at hmessages
    exact mayHaveBody_of_delivered hall {} {} hmessages
  · intro hmay
    obtain ⟨last, hconsume⟩ := consume_flatMap_bytes hall hmay {}
    constructor
    · rw [hdelivered, hconsume]
      exact foldl_note_flatMap {} responses
    · apply Reader.results_of_whole hsound hne
      rw [hpieces, hconsume]
    · rw [hcome.reader, hconsume]

/-- A response with a head in its body, one without a body and one with a code of its own. -/
def responsesInRow : List Response :=
  [{ status := 200, message := { body := (Utf8.encode "HTTP/1.1 500 \r\n\r\n").toArray } },
    { status := 304, message := { headers := ⟨⟨[("ETag", some "é"), ("Via", none)], by decide⟩⟩ } },
    { status := 299, message := { body := #[0x0A] } }]

/-- What is written of them, cut inside a body and inside a head. -/
def piecesInRow : List Bytes :=
  let stream := responsesInRow.flatMap bytes
  [stream.take 45, (stream.drop 45).take 40, stream.drop 85]

theorem piecesInRow_deliver :
    ((∀ r ∈ responsesInRow, r.HasPlainHead {}) ∧ (∀ piece ∈ piecesInRow, piece ≠ []) ∧
      piecesInRow.flatten = responsesInRow.flatMap bytes) ∧
      Deliver responsesInRow piecesInRow (({} : Reader .response).feedAll piecesInRow) := by
  have hall : ∀ r ∈ responsesInRow, r.HasPlainHead {} := by decide +kernel
  have hne : ∀ piece ∈ piecesInRow, piece ≠ [] := by decide +kernel
  have hpieces : piecesInRow.flatten = responsesInRow.flatMap bytes := by decide +kernel
  have hmay : ∀ r ∈ responsesInRow,
      r.status < 200 ∨ r.status = 204 ∨ r.status = 304 → r.message.body = #[] := by
    decide +kernel
  exact ⟨⟨hall, hne, hpieces⟩, (deliver_iff hall hne hpieces).mpr hmay⟩

/-- A response with a body that its status excludes, and one behind it. -/
def responsesAtOdds : List Response :=
  [{ status := 204, message := { body := #[0x78] } }, { status := 200 }]

/-- The body is not read as one but as the beginning of what comes behind it. -/
theorem responsesAtOdds_not_delivered :
    let calls := ({} : Reader .response).feedAll [responsesAtOdds.flatMap bytes]
    (∀ r ∈ responsesAtOdds, r.HasPlainHead {}) ∧ Event.delivered calls.events = [(204, [])] ∧
      calls.results = [.error .invalidVersion] ∧
      ¬ Deliver responsesAtOdds [responsesAtOdds.flatMap bytes] calls := by
  intro calls
  have hdelivered : Event.delivered calls.events = [(204, [])] := by decide +kernel
  refine ⟨by decide +kernel, hdelivered, by decide +kernel, fun hdeliver => ?_⟩
  have hmessages := hdeliver.delivered
  rw [hdelivered] at hmessages
  revert hmessages
  decide +kernel

end Response

end HttpWire
