import HttpWire.Proofs.Message
import HttpWire.Proofs.Message.Completed
import HttpWire.Proofs.Message.Stored
import HttpWire.Proofs.Response.RoundTrip
/-!
# Responses that are passed on

A response that was received can be written again. What is written has the fields that were kept,
and they still say how the body came: they frame the body as it is kept unless it came in chunks. A
new response reads the same status and body back exactly when they do.
-/

namespace HttpWire

/-! ## Complete messages -/

theorem Chunked.ChunkedBody.length_lt {body payload : Bytes}
    (h : Chunked.ChunkedBody body payload) : payload.length < body.length := by
  obtain ⟨hfinished, hpayload⟩ := Chunked.Decoder.decode_chunkedBody h []
  have hless := Chunked.Decoder.length_payload_lt hfinished
  rw [hpayload, List.append_nil] at hless
  exact hless

namespace Reader

variable {kind : Kind}

/-- Behind a message that is over, its body stays in place, or one comes that is smaller than the
bytes that follow. -/
theorem body_behind {limits : Limits} {start : Start} {head : Head} {front rest : Bytes}
    {p : Progress kind} {k n : Nat} (hok : p.result = .ok n)
    (hp : p.Agree (.behind (messageEvents head start front) k (consume { limits, start } rest)))
    (m : Message) :
    (p.events.foldl Message.receive m).body = front.toArray ∨
      (p.events.foldl Message.receive m).body.size < rest.length := by
  have hfold : p.events.foldl Message.receive m =
      (messageEvents head start front ++
        (({ limits, start } : Reader kind).consume rest).events).foldl Message.receive m :=
    Event.foldl_congr_of_joinBodies Message.receive_body hp.events m
  obtain ⟨j, hj⟩ : ∃ j, (({ limits, start } : Reader kind).consume rest).result = .ok j := by
    have hresult := hp.result
    rw [hok] at hresult
    cases hrest : (({ limits, start } : Reader kind).consume rest).result with
    | ok j => exact ⟨j, rfl⟩
    | error error =>
      rw [Progress.behind, hrest] at hresult
      cases hresult
  rw [hfold, List.foldl_append]
  by_cases hnone : (({ limits, start } : Reader kind).consume rest).events = []
  · left
    obtain ⟨pendingName, hmessage⟩ := Message.foldl_receive_message m head start front
    rw [hnone, hmessage]
    rfl
  · right
    have hless := consume_body_lt rfl hj hnone ((messageEvents head start front).foldl
      Message.receive m)
    have hle := le_of_consume_ok (State.sound_idle limits) hj
    omega

/-- **Only its length frames a body that reads as the bytes that come**, or a switch of protocols if
there are none. In any other case the message stays open, or what is read is smaller. -/
theorem framing_of_whole {r : Reader kind} (hidle : r.state = .idle) {block tail : Bytes}
    {head : Head} {start : Start} {framing : Framing}
    (h : Accepted kind r.limits block head start framing) {n : Nat} {m : Message}
    (hok : (r.consume (block ++ tail)).result = .ok n) (hwhole : block.length + tail.length ≤ n)
    (hrests : (r.consume (block ++ tail)).reader.state.Rests)
    (hbody : ((r.consume (block ++ tail)).events.foldl Message.receive m).body = tail.toArray) :
    framing = .length tail.length ∨ framing = .protocolSwitch ∧ tail = [] := by
  -- Behind a message that is over there is nothing that could be as long.
  have hsame : ∀ (front rest : Bytes) (k : Nat), rest.length ≤ tail.length →
      (r.consume (block ++ tail)).Agree
        (.behind (messageEvents head start front) k
          (consume { limits := r.limits, start } rest)) →
      tail.length = front.length := by
    intro front rest k hrest hagree
    rcases body_behind hok hagree m with hfront | hsmall
    · rw [hbody] at hfront
      simpa using congrArg Array.size hfront
    · rw [hbody, List.size_toArray] at hsmall
      omega
  cases framing with
  | protocolSwitch =>
    right
    rw [consume_switch hidle h rfl] at hok
    cases hok
    refine ⟨rfl, List.eq_nil_of_length_eq_zero ?_⟩
    omega
  | untilEnd =>
    rw [consume_endless hidle h rfl] at hrests
    exact absurd hrests (not_rests_body rfl)
  | length k =>
    left
    by_cases hle : k ≤ tail.length
    · have hconsume := consume_sized hidle h rfl hle
      have hlen := hsame (tail.take k) (tail.drop k) (block.length + k) (by simp)
        (by rw [hconsume]; exact .refl _)
      rw [hlen, List.length_take_of_le hle]
    · rw [consume_sizedPart hidle h rfl (Nat.not_le.mp hle)] at hrests
      exact absurd hrests (not_rests_body rfl)
  | chunked =>
    exfalso
    by_cases hchunks : ∃ body rest payload, tail = body ++ rest ∧
        Chunked.ChunkedBody body payload
    · obtain ⟨body, rest, payload, rfl, hchunked⟩ := hchunks
      have hlen := hsame payload rest _ (by simp) (consume_chunkedBody hidle h rfl rfl hchunked)
      have hless := hchunked.length_lt
      rw [List.length_append] at hlen
      omega
    · have hnone : ∀ body rest payload, tail = body ++ rest →
          ¬ Chunked.ChunkedBody body payload := fun body rest payload htail hchunked =>
        hchunks ⟨body, rest, payload, htail, hchunked⟩
      rcases consume_chunkedPart hidle h rfl hnone with ⟨decoder, hopen⟩ | ⟨hfailed, -⟩
      · rw [hopen.reader] at hrests
        exact absurd hrests (not_rests_body rfl)
      · rw [hfailed.result] at hok
        cases hok

end Reader

/-! ## Reading back what was written -/

namespace Response

open Reader (State Progress)

/-- Whether a new response that parses all that this one writes is complete, with the same status
and the same body. -/
def ReadsBack (limits : Limits) (r : Response) : Prop :=
  let again := (withLimits limits).parse r.bytes
  again.2 = .ok .complete ∧ again.1.status = r.status ∧ again.1.message.body = r.message.body

theorem headBytes_ne_nil (r : Response) : r.headBytes ≠ [] := by
  rw [headBytes]
  simp [Message.lineBreak]

theorem bytes_ne_nil (r : Response) : r.bytes ≠ [] := by
  rw [bytes_eq]
  exact List.append_ne_nil_of_left_ne_nil r.headBytes_ne_nil _

/-- What a new response receives. -/
theorem parse_new (limits : Limits) {input : Bytes} (hne : input ≠ []) :
    let progress := ({ limits } : Reader .response).consume input
    let received := progress.events.foldl receive
      { withLimits limits with reader := progress.reader }
    (withLimits limits).parse input =
      (received, received.message.answer progress.result input.length) := by
  rw [← Reader.feed_of_ne_nil hne]
  exact parse_eq (withLimits limits) input

section
variable {limits : Limits} {r : Response}
  (hparse : Head.parse .response limits.maxFields r.headBytes = .done r.writtenHead [])
  (hlength : r.headBytes.length ≤ limits.maxHeadLength)
include hparse hlength

/-- A head that frames the body is enough to read it back. -/
theorem FramesBody.readsBack (h : r.FramesBody) : r.ReadsBack limits := by
  obtain ⟨reader, hconsume⟩ := h.consume_bytes hparse hlength
  obtain ⟨pendingName, hreceived⟩ := foldl_receive_messageEvents
    ⟨(withLimits limits).status, (withLimits limits).message, reader⟩ r.writtenHead.start
    r.message.writtenFields r.writtenStart r.message.body.toList
  change (Reader.messageEvents r.writtenHead r.writtenStart _).foldl receive _ = _ at hreceived
  unfold ReadsBack
  rw [parse_new limits r.bytes_ne_nil, hconsume]
  dsimp only
  rw [hreceived, Message.answer_of_whole]
  exact ⟨rfl, rfl, rfl⟩

/-- Lengths that are at odds are an error. -/
theorem consume_of_unsound {error : Error} {rest : Bytes}
    (h : Framing.ofHead .response r.writtenStart r.writtenHead.fields = .error error) :
    (({ limits } : Reader .response).consume (r.headBytes ++ rest)).result = .error error := by
  have hopen : (({ limits } : Reader .response).openMessage [.messageBegin] r.writtenHead
      r.headBytes.length).result = .error error := by
    have hstart : r.writtenHead.start.start = .ok r.writtenStart := rfl
    rw [Reader.openMessage, hstart]
    dsimp only
    rw [h]
    rfl
  have hread : ({ limits } : Reader .response).readHead [.messageBegin] #[] (r.headBytes ++ rest) =
      ({ limits } : Reader .response).openMessage [.messageBegin] r.writtenHead
        r.headBytes.length := Reader.readHead_append hparse hlength
  obtain ⟨b, block, hblock⟩ := List.exists_cons_of_ne_nil r.headBytes_ne_nil
  have hbreak : Byte.isBreak b = false := Head.isBreak_of_parse_done (hblock ▸ hparse)
  have hstep : ({ limits } : Reader .response).step (r.headBytes ++ rest) =
      ({ limits } : Reader .response).openMessage [.messageBegin] r.writtenHead
        r.headBytes.length := by
    rw [← hread, hblock]
    exact Reader.step_idle_of_not_break hbreak
  rw [← hstep] at hopen
  rw [hblock, List.cons_append] at hopen ⊢
  rw [Reader.consume_of_error hopen, hopen]

/-- **A head that does not frame the body does not let it be read back.** -/
theorem framesBody_of_readsBack (h : r.ReadsBack limits) : r.FramesBody := by
  obtain ⟨hcomplete, -, hbody⟩ := h
  rw [parse_new limits r.bytes_ne_nil] at hcomplete hbody
  dsimp only at hcomplete hbody
  rw [message_foldl_receive] at hcomplete hbody
  obtain ⟨⟨n, hok, hwhole⟩, hrests⟩ := Reader.rests_of_complete rfl rfl hcomplete
  rw [bytes_eq] at hok hwhole hbody hrests
  rw [List.length_append] at hwhole
  cases hframing : Framing.ofHead .response r.writtenStart r.writtenHead.fields with
  | error error =>
    rw [consume_of_unsound hparse hlength hframing] at hok
    cases hok
  | ok framing =>
    have haccepted : Reader.Accepted .response limits r.headBytes r.writtenHead r.writtenStart
        framing := ⟨hparse, hlength, rfl, hframing⟩
    rcases Reader.framing_of_whole rfl haccepted hok hwhole hrests hbody with rfl | ⟨rfl, hnil⟩
    · left
      rw [hframing, Array.length_toList]
    · right
      exact ⟨hframing, Array.toList_eq_nil_iff.mp hnil⟩

end

/-! ## What was received -/

open Framing (EndsInChunked ExcludesBody LeavesProtocol)

/-- The status is that of the message that came last. -/
theorem status_of_completes {limits : Limits} {head : Head} {start : Start}
    {framing : Framing} {pieces : List Bytes} {events : List Event}
    (h : Reader.Completes .response limits head start framing pieces events) (r : Response) :
    (events.foldl receive r).status = start.status := by
  obtain ⟨before, block, -, -, rfl⟩ := h
  rw [← List.append_assoc, List.foldl_append]
  rfl

/-- A response that was received is complete with the message that came last. -/
theorem received_of_complete {limits : Limits} {w : Bytes}
    (h : ((withLimits limits).parse w).2 = .ok .complete) :
    let r := ((withLimits limits).parse w).1
    ∃ head start framing pieces,
      Reader.Completes .response limits head start framing pieces
          ((withLimits limits).reader.feed w).events ∧
        r.status = start.status ∧ r.message.headers = .insertFields {} head.fields ∧
          r.message.body = pieces.flatten.toArray := by
  intro r
  have hfeed : (withLimits limits).reader.feed w = (withLimits limits).reader.consume w :=
    Reader.feed_of_idle rfl w
  have hr : r = ((withLimits limits).reader.consume w).events.foldl receive
      { withLimits limits with reader := ((withLimits limits).reader.consume w).reader } := by
    show ((withLimits limits).parse w).1 = _
    rw [parse_eq, hfeed]
  rw [parse_eq, hfeed] at h
  dsimp only at h
  rw [message_foldl_receive] at h
  obtain ⟨head, start, framing, pieces, hlast⟩ := Reader.completes_of_complete rfl rfl h
  obtain ⟨pendingName, hmessage⟩ := hlast.foldl_receive (withLimits limits).message
  refine ⟨head, start, framing, pieces, hfeed ▸ hlast, ?_, ?_, ?_⟩
  · rw [hr, status_of_completes hlast]
  · rw [hr, message_foldl_receive]
    exact congrArg Message.headers hmessage
  · rw [hr, message_foldl_receive]
    exact congrArg Message.body hmessage

/-- No body comes with a status that excludes one. -/
theorem eq_nil_of_excludesBody {start : Start} {fields : List Field} {framing : Framing}
    (h : Framing.ofHead .response start fields = .ok framing)
    (hexcludes : ExcludesBody .response start) {body : Bytes} (hfits : framing.Fits body) :
    body = [] := by
  by_cases hleaves : LeavesProtocol .response start fields
  · rw [Framing.framing_of_leaves h hleaves] at hfits
    exact hfits
  · rw [Framing.framing_of_excludes h hleaves hexcludes] at hfits
    exact List.eq_nil_of_length_eq_zero hfits

/-- The only status that switches protocols excludes a body. -/
theorem excludesBody_of_leaves {start : Start} {fields : List Field}
    (h : LeavesProtocol .response start fields) : ExcludesBody .response start := by
  refine ⟨rfl, .inl ?_⟩
  rw [h.1]
  decide

/-- Where a body may come and did not come in chunks, the fields have given its length. -/
theorem ofFields_of_fits {start : Start} {fields : List Field} {framing : Framing}
    (h : Framing.ofHead .response start fields = .ok framing)
    (hincludes : ¬ ExcludesBody .response start) (hchunked : ¬ EndsInChunked fields) {body : Bytes}
    (hfits : framing.Fits body) : Framing.ofFields fields = .ok (some (.length body.length)) := by
  have hstays : ¬ LeavesProtocol .response start fields := mt excludesBody_of_leaves hincludes
  obtain ⟨asked, hasked, hdecides⟩ := Framing.framing_of_fields h hstays hincludes
  obtain ⟨-, hends⟩ | ⟨n, hn, -⟩ := Framing.framing_of_lengths h hstays hincludes hchunked
  · rw [hends] at hfits
    exact hfits.elim
  · rw [hn] at hfits hdecides
    have hlength : body.length = n := hfits
    cases asked with
    | none => cases hdecides
    | some framing' => rw [hasked, hlength, hdecides, Option.getD_some]

/-- A head frames the body if its fields give the length of the body, or if no body may come and
there is none. -/
theorem framesBody_of_ofFields {r : Response} {asked : Framing}
    (h : Framing.ofFields (r.message.writtenFields.map Field.ofEntry) = .ok (some asked))
    (hempty : ExcludesBody .response r.writtenStart → r.message.body = #[])
    (hlength : ¬ ExcludesBody .response r.writtenStart → asked = .length r.message.body.size) :
    r.FramesBody := by
  unfold FramesBody Framing.ofHead writtenHead
  rw [h]
  unfold Except.map
  dsimp only
  by_cases hswitch : Framing.switchesProtocol .response r.writtenStart
      (r.message.writtenFields.map Field.ofEntry) = true
  · right
    rw [if_pos hswitch]
    exact ⟨rfl, hempty (excludesBody_of_leaves (Framing.switchesProtocol_iff.mp hswitch))⟩
  · left
    rw [if_neg hswitch]
    by_cases hbodyless : (Kind.response == .response &&
        Status.isBodyless r.writtenStart.status) = true
    · rw [if_pos hbodyless, hempty (Framing.excludesBody_iff.mp hbodyless)]
      rfl
    · rw [if_neg hbodyless, hlength (mt Framing.excludesBody_iff.mpr hbodyless)]
      rfl

/-- **What is kept of a message that did not come in chunks frames its body.** -/
theorem framesBody_of_received {limits : Limits} {block body : Bytes} {head : Head} {start : Start}
    {framing : Framing} {r : Response}
    (haccepted : Reader.Accepted .response limits block head start framing)
    (hfits : framing.Fits body) (hchunked : ¬ EndsInChunked head.fields)
    (hstatus : r.status = start.status) (hheaders : r.message.headers = .insertFields {} head.fields)
    (hbody : r.message.body = body.toArray) : r.FramesBody := by
  have hplain := Head.isPlain_of_parse_done haccepted.parse
  have hsound := haccepted.sound
  obtain ⟨asked, hasked, -⟩ := Framing.ofHead_eq_ok hsound
  have hexcludes : ExcludesBody .response r.writtenStart ↔ ExcludesBody .response start := by
    unfold ExcludesBody
    show _ ∧ (100 ≤ r.status ∧ r.status < 200 ∨ r.status = 204 ∨ r.status = 304) ↔ _
    rw [hstatus]
  have hempty : ExcludesBody .response start → r.message.body = #[] := by
    intro hexcluded
    rw [hbody, eq_nil_of_excludesBody hsound hexcluded hfits]
  have hlength : ¬ ExcludesBody .response start → asked = some (.length r.message.body.size) := by
    intro hincludes
    have hgiven := ofFields_of_fits hsound hincludes hchunked hfits
    rw [hasked] at hgiven
    rw [hbody, List.size_toArray]
    exact Except.ok.inj hgiven
  have hsize : asked = none → r.message.body.size < UInt64.size := by
    intro hnone
    by_cases hexcluded : ExcludesBody .response start
    · rw [hempty hexcluded]
      decide
    · rw [hlength hexcluded] at hnone
      cases hnone
  refine framesBody_of_ofFields
    (Message.ofFields_writtenFields_of_fields hplain hheaders hchunked hasked hsize)
    (fun hexcluded => hempty (hexcludes.mp hexcluded)) fun hincludes => ?_
  rw [hlength (mt hexcludes.mpr hincludes), Option.getD_some]

/-! ## Passing a response on -/

/-- **When a response that was received can be passed on.** However many messages a stretch of bytes
holds that a new response parses as complete, the response is that of the last one. If its status
has three digits and the head that it writes is not too large, a new response that parses in one
call what it writes is complete with the same status and the same body exactly when the written head
frames the body. It does so whenever no `Transfer-Encoding` of the head ended in `chunked`. -/
theorem readsBack_iff_framesBody {limits next : Limits} {w : Bytes}
    (hcomplete : ((withLimits limits).parse w).2 = .ok .complete)
    (hstatus : 100 ≤ ((withLimits limits).parse w).1.status)
    (hlength : ((withLimits limits).parse w).1.headBytes.length ≤ next.maxHeadLength)
    (hroom : ((withLimits limits).parse w).1.message.writtenFields.length ≤ next.maxFields) :
    let r := ((withLimits limits).parse w).1
    ∃ head start framing pieces,
      Reader.Completes .response limits head start framing pieces
          ((withLimits limits).reader.feed w).events ∧
        (r.ReadsBack next ↔ r.FramesBody) ∧ (¬ EndsInChunked head.fields → r.ReadsBack next) := by
  intro r
  obtain ⟨head, start, framing, pieces, hlast, hsame, hheaders, hbody⟩ :=
    received_of_complete hcomplete
  refine ⟨head, start, framing, pieces, hlast, ?_⟩
  obtain ⟨-, block, haccepted, hfits, -⟩ := hlast
  have hplain := Head.isPlain_of_parse_done haccepted.parse
  have hhigh : r.status ≤ 999 := by
    rw [hsame]
    exact Head.status_le_of_parse_done haccepted.parse haccepted.known
  have hparse : Head.parse .response next.maxFields r.headBytes = .done r.writtenHead [] :=
    parse_headBytes ⟨hstatus, hhigh⟩
      (fun _ => Message.isPlain_of_mem_writtenFields hplain hheaders) hroom
  refine ⟨⟨framesBody_of_readsBack hparse hlength, fun h => h.readsBack hparse hlength⟩,
    fun hchunked => ?_⟩
  exact (framesBody_of_received haccepted hfits hchunked hsame hheaders hbody).readsBack hparse
    hlength

/-- A response with a value that is no text, and with a length that is given twice. -/
def twofoldResponse : Bytes :=
  Utf8.encode "\r\nHTTP/1.0 599 \r\nVia:  " ++ [0xE9] ++
    Utf8.encode " a\r\nContent-Length: 2\r\ncontent-length: 02\r\n\r\nab"

theorem twofoldResponse_readsBack :
    let r := ((withLimits {}).parse twofoldResponse).1
    (((withLimits {}).parse twofoldResponse).2 = .ok .complete ∧ 100 ≤ r.status ∧
        r.headBytes.length ≤ 81920 ∧ r.message.writtenFields.length ≤ 64) ∧
      r.message.headers.live = [("Via", "\uFFFD a"), ("Content-Length", "02")] ∧
      r.ReadsBack {} := by
  intro r
  have hcomplete : ((withLimits {}).parse twofoldResponse).2 = .ok .complete := by decide +kernel
  have hstatus : 100 ≤ ((withLimits {}).parse twofoldResponse).1.status := by decide +kernel
  have hlength : ((withLimits {}).parse twofoldResponse).1.headBytes.length ≤ (81920 : Nat) := by
    decide +kernel
  have hroom : ((withLimits {}).parse twofoldResponse).1.message.writtenFields.length ≤
      (64 : Nat) := by decide +kernel
  have hlive : r.message.headers.live = [("Via", "\uFFFD a"), ("Content-Length", "02")] := by
    decide +kernel
  have hframes : r.FramesBody := .inl (by decide +kernel)
  obtain ⟨-, -, -, -, -, hiff, -⟩ :=
    @readsBack_iff_framesBody {} {} twofoldResponse hcomplete hstatus hlength hroom
  exact ⟨⟨hcomplete, hstatus, hlength, hroom⟩, hlive, hiff.mpr hframes⟩

/-- A response that came in chunks. -/
def chunkedResponse : Bytes :=
  Utf8.encode "HTTP/1.1 200 OK\r\nTransfer-Encoding: chunked\r\n\r\n1\r\na\r\n0\r\n\r\n"

/-- It is one message, but what it writes says that chunks follow where none do. -/
theorem chunkedResponse_not_readsBack :
    let r := ((withLimits {}).parse chunkedResponse).1
    ((withLimits {}).parse chunkedResponse).2 = .ok .complete ∧
      Event.begun ((withLimits {}).reader.feed chunkedResponse).events = 1 ∧
      r.headBytes.length ≤ 81920 ∧ r.message.writtenFields.length ≤ 64 ∧ ¬ r.ReadsBack {} := by
  intro r
  refine ⟨by decide +kernel, by decide +kernel, by decide +kernel, by decide +kernel, ?_⟩
  rintro ⟨hcomplete, -, -⟩
  have hopen : ((withLimits {}).parse r.bytes).2 = .ok .incomplete := by decide +kernel
  rw [hopen] at hcomplete
  cases hcomplete

end Response

end HttpWire
