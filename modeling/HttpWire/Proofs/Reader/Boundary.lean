import HttpWire.Proofs.Chunked.Grammar
import HttpWire.Proofs.Reader.Pieces
import HttpWire.Proofs.Reader.Whole
/-!
# Where messages end

A head that is accepted decides where its message ends, by the first of the rules of framing that
applies: a switch of protocols, a status that excludes a body, chunks, a length, and else what kind
of message it is. Whatever follows the head and however it is cut, the message ends there, and what
is behind its end is read as the next message.
-/

namespace HttpWire.Reader

open Framing

variable {kind : Kind}

/-- What calls have come to that were fed the head `block` and then `tail`, rule by rule. -/
structure EndsByRule (limits : Limits) (block tail : Bytes) (head : Head) (start : Start)
    (calls : Calls kind) : Prop where
  /-- Another protocol follows: the message is complete with its head, and nothing behind the head
  is consumed. -/
  switch : LeavesProtocol kind start head.fields →
    calls.ComeTo ⟨messageEvents head start [], ⟨limits, .switched, start⟩, .ok block.length⟩
  /-- Or else the status excludes a body: the message is complete with its head, and what follows is
  read as the next message. -/
  noBody : ¬ LeavesProtocol kind start head.fields → ExcludesBody kind start →
    calls.ComeTo
      (.behind (messageEvents head start []) block.length (consume { limits, start } tail))
  /-- Or else there are chunks, and a chunked body follows: the message is complete with the body,
  and has its payload. -/
  chunked : ¬ LeavesProtocol kind start head.fields → ¬ ExcludesBody kind start →
    EndsInChunked head.fields → ∀ body rest payload, tail = body ++ rest →
      Chunked.ChunkedBody body payload →
        calls.ComeTo
          (.behind (messageEvents head start payload) (block ++ body).length
            (consume { limits, start } rest))
  /-- Or there are chunks, and no chunked body is complete: the message is not complete either. It
  has the payload that has come, and if it has failed then no chunked body begins like this. -/
  chunkedPart : ¬ LeavesProtocol kind start head.fields → ¬ ExcludesBody kind start →
    EndsInChunked head.fields →
      (∀ body rest payload, tail = body ++ rest → ¬ Chunked.ChunkedBody body payload) →
        let events := openEvents head start ++
          bodyEvents (Chunked.Decoder.initial.decode tail).payload
        (∃ decoder, calls.ComeTo
          ⟨events, ⟨limits, .body (.chunked decoder), start⟩, .ok (block ++ tail).length⟩) ∨
        (calls.ComeTo ⟨events, ⟨limits, .failed .invalidChunkSize, start⟩,
            .error .invalidChunkSize⟩ ∧
          ∀ body payload, Chunked.ChunkedBody body payload → ¬ tail <+: body)
  /-- Or else there is a length, and as much has come: the message is complete with that many
  bytes. -/
  length : ¬ LeavesProtocol kind start head.fields → ¬ ExcludesBody kind start →
    ¬ EndsInChunked head.fields → ∀ n, GivesLength head.fields n → n ≤ tail.length →
      calls.ComeTo
        (.behind (messageEvents head start (tail.take n)) (block.length + n)
          (consume { limits, start } (tail.drop n)))
  /-- Or there is a length, and less has come: the message is not complete. -/
  lengthPart : ¬ LeavesProtocol kind start head.fields → ¬ ExcludesBody kind start →
    ¬ EndsInChunked head.fields → ∀ n, GivesLength head.fields n → tail.length < n →
      calls.ComeTo ⟨openEvents head start ++ bodyEvents tail,
        ⟨limits, .body (.length (n - tail.length)), start⟩, .ok (block ++ tail).length⟩
  /-- Or else a request has no body. -/
  request : ¬ LeavesProtocol kind start head.fields → ¬ ExcludesBody kind start →
    ¬ EndsInChunked head.fields → (∀ n, ¬ GivesLength head.fields n) → kind = .request →
      calls.ComeTo
        (.behind (messageEvents head start []) block.length (consume { limits, start } tail))
  /-- And a response has a body that the end of the input completes. -/
  response : ¬ LeavesProtocol kind start head.fields → ¬ ExcludesBody kind start →
    ¬ EndsInChunked head.fields → (∀ n, ¬ GivesLength head.fields n) → kind = .response →
      calls.ComeTo ⟨openEvents head start ++ bodyEvents tail, ⟨limits, .body .untilEnd, start⟩,
          .ok (block ++ tail).length⟩ ∧
        calls.reader.feed [] = ⟨[.messageComplete start], { limits, start }, .ok 0⟩

/-! ## The framings one by one -/

/-- The pieces of a body join to the body. -/
theorem joinBodies_map_body {pieces : List Bytes} (h : ∀ piece ∈ pieces, piece ≠ []) :
    Event.joinBodies (pieces.map .body) = Event.joinBodies (bodyEvents pieces.flatten) := by
  by_cases hnil : pieces.flatten = []
  · have hjoin : Event.joinBodies (pieces.map .body) =
        Event.joinBodies (([] : List Bytes).map .body) :=
      Event.joinBodies_map_body_congr h (by simp) hnil
    rw [hjoin, bodyEvents, if_pos hnil]
    rfl
  · have hjoin : Event.joinBodies (pieces.map .body) =
        Event.joinBodies ([pieces.flatten].map .body) :=
      Event.joinBodies_map_body_congr h (by simpa using hnil) (by simp)
    rw [hjoin, bodyEvents, if_neg hnil]
    rfl

section
variable {r : Reader kind} (hidle : r.state = .idle) {block tail : Bytes} {head : Head}
  {start : Start} {framing : Framing} (h : Accepted kind r.limits block head start framing)
include hidle h

theorem consume_switch (hframing : framing = .protocolSwitch) :
    r.consume (block ++ tail) =
      ⟨messageEvents head start [], ⟨r.limits, .switched, start⟩, .ok block.length⟩ := by
  subst hframing
  have hevents : messageEvents head start [] =
      openEvents head start ++ endEvents .protocolSwitch start := by
    simp [messageEvents, bodyEvents, endEvents, State.afterHead, State.inBody]
  rw [consume_head hidle h, consume_of_switched rfl, hevents]
  simp [Progress.behind, Progress.none, Except.map, State.afterHead]

/-- With its head a message is complete that has no body. -/
theorem consume_bodyless (hframing : framing = .length 0) :
    r.consume (block ++ tail) =
      .behind (messageEvents head start []) block.length
        (consume { limits := r.limits, start } tail) := by
  subst hframing
  have hnone : Accepted kind r.limits block head start (.length ([] : Bytes).length) := h
  exact consume_message hidle hnone tail

/-- A head that leaves its message open is reported, and what follows is read as its body. -/
theorem consume_open {body : Body} (hafter : State.afterHead framing = .body body) :
    r.consume (block ++ tail) =
      .behind (openEvents head start) block.length
        (consume ⟨r.limits, .body body, start⟩ tail) := by
  rw [consume_head hidle h, endEvents, hafter]
  simp [State.inBody]

theorem consume_sized {n : Nat} (hframing : framing = .length n) (hn : n ≤ tail.length) :
    r.consume (block ++ tail) =
      .behind (messageEvents head start (tail.take n)) (block.length + n)
        (consume { limits := r.limits, start } (tail.drop n)) := by
  have htake : (tail.take n).length = n := List.length_take_of_le hn
  have haccepted : Accepted kind r.limits block head start (.length (tail.take n).length) := by
    rwa [htake, ← hframing]
  have hconsume := consume_message hidle haccepted (tail.drop n)
  rwa [List.take_append_drop, htake] at hconsume

theorem consume_sizedPart {n : Nat} (hframing : framing = .length n) (hn : tail.length < n) :
    r.consume (block ++ tail) =
      ⟨openEvents head start ++ bodyEvents tail,
        ⟨r.limits, .body (.length (n - tail.length)), start⟩, .ok (block ++ tail).length⟩ := by
  have hafter : State.afterHead framing = .body (.length n) := by
    obtain ⟨m, rfl⟩ : ∃ m, n = m + 1 := ⟨n - 1, by omega⟩
    rw [hframing, State.afterHead]
  rw [consume_open hidle h hafter, consume_length_of_lt hn]
  simp [Progress.behind, Except.map]

theorem consume_endless (hframing : framing = .untilEnd) :
    r.consume (block ++ tail) =
      ⟨openEvents head start ++ bodyEvents tail, ⟨r.limits, .body .untilEnd, start⟩,
        .ok (block ++ tail).length⟩ := by
  have hafter : State.afterHead framing = .body .untilEnd := by rw [hframing, State.afterHead]
  rw [consume_open hidle h hafter, consume_untilEnd]
  simp [Progress.behind, Except.map]

/-- A chunked body completes its message, with its payload up to how that is cut. -/
theorem consume_chunkedBody (hframing : framing = .chunked) {body rest payload : Bytes}
    (htail : tail = body ++ rest) (hbody : Chunked.ChunkedBody body payload) :
    (r.consume (block ++ tail)).Agree
      (.behind (messageEvents head start payload) (block ++ body).length
        (consume { limits := r.limits, start } rest)) := by
  subst htail
  obtain ⟨hfinished, hpayload⟩ := Chunked.Decoder.decode_chunkedBody hbody rest
  have hafter : State.afterHead framing = .body (.chunked .initial) := by
    rw [hframing, State.afterHead]
  rw [consume_open hidle h hafter, consume_chunked hfinished, behind_behind, List.length_append,
    ← hpayload]
  refine ⟨Event.joinBodies_append_congr ?_ rfl, rfl, rfl⟩
  have hpieces : ∀ piece ∈ (Chunked.Decoder.initial.decode (body ++ rest)).pieces, piece ≠ [] :=
    fun piece => Chunked.Decoder.pieces_ne_nil
  rw [messageEvents, List.append_assoc]
  exact Event.joinBodies_append_congr rfl
    (Event.joinBodies_append_congr (joinBodies_map_body hpieces) rfl)

/-- Without a chunked body the message stays open, or fails where the framing is broken. -/
theorem consume_chunkedPart (hframing : framing = .chunked)
    (hnone : ∀ body rest payload, tail = body ++ rest → ¬ Chunked.ChunkedBody body payload) :
    let events := openEvents head start ++ bodyEvents (Chunked.Decoder.initial.decode tail).payload
    (∃ decoder, (r.consume (block ++ tail)).Agree
      ⟨events, ⟨r.limits, .body (.chunked decoder), start⟩, .ok (block ++ tail).length⟩) ∨
    ((r.consume (block ++ tail)).Agree
        ⟨events, ⟨r.limits, .failed .invalidChunkSize, start⟩, .error .invalidChunkSize⟩ ∧
      ∀ body payload, Chunked.ChunkedBody body payload → ¬ tail <+: body) := by
  intro events
  have hafter : State.afterHead framing = .body (.chunked .initial) := by
    rw [hframing, State.afterHead]
  have hpieces : ∀ piece ∈ (Chunked.Decoder.initial.decode tail).pieces, piece ≠ [] :=
    fun piece => Chunked.Decoder.pieces_ne_nil
  have hevents : Event.joinBodies (openEvents head start ++
      (Chunked.Decoder.initial.decode tail).pieces.map .body) = Event.joinBodies events :=
    Event.joinBodies_append_congr rfl (joinBodies_map_body hpieces)
  rw [consume_open hidle h hafter]
  cases houtcome : (Chunked.Decoder.initial.decode tail).outcome with
  | more decoder =>
    left
    refine ⟨decoder, ?_⟩
    rw [consume_chunked_of_more houtcome, List.length_append]
    exact ⟨hevents, rfl, rfl⟩
  | broken =>
    right
    rw [consume_chunked_of_broken houtcome]
    refine ⟨⟨hevents, rfl, rfl⟩, fun body payload hbody => ?_⟩
    exact Chunked.Decoder.not_prefix_of_broken houtcome hbody
  | finished rest =>
    -- The decoder ends nowhere but behind a chunked body.
    obtain ⟨body, htail, hreads⟩ := Chunked.Decoder.reads_of_finished (d := .initial) rfl houtcome
    exact absurd hreads (hnone body rest _ htail)

end

/-! ## The rules together -/

/-- **Where a message ends.** A head that is accepted between messages, whatever follows it and in
whichever pieces it comes with what follows, ends its message by the first rule that applies: a
switch of protocols ends it with the head and leaves the rest alone; else a status that excludes a
body does and what follows is the next message; else chunks end it with the chunked body; else a
length with that many bytes; and else a request has no body and a response all of the input. -/
theorem endsByRule {r : Reader kind} (hidle : r.state = .idle) {block tail : Bytes} {head : Head}
    {start : Start} {framing : Framing} (h : Accepted kind r.limits block head start framing)
    {pieces : List Bytes} (hne : ∀ piece ∈ pieces, piece ≠ [])
    (hpieces : pieces.flatten = block ++ tail) :
    EndsByRule r.limits block tail head start (r.feedAll pieces) := by
  have hsound : r.state.Sound r.limits := by
    rw [hidle]
    exact State.sound_idle r.limits
  have hcome := feedAll_flatten hsound hne
  rw [hpieces] at hcome
  constructor
  case switch =>
    intro hleaves
    rwa [consume_switch hidle h (framing_of_leaves h.sound hleaves)] at hcome
  case noBody =>
    intro hstays hexcludes
    rwa [consume_bodyless hidle h (framing_of_excludes h.sound hstays hexcludes)] at hcome
  case chunked =>
    intro hstays hbody hchunked body rest payload htail hchunks
    have hframing := framing_of_chunked h.sound hstays hbody hchunked
    exact hcome.of_agree (consume_chunkedBody hidle h hframing htail hchunks).symm
  case chunkedPart =>
    intro hstays hbody hchunked hnone
    have hframing := framing_of_chunked h.sound hstays hbody hchunked
    obtain ⟨decoder, hagree⟩ | ⟨hagree, hbroken⟩ := consume_chunkedPart hidle h hframing hnone
    · exact .inl ⟨decoder, hcome.of_agree hagree.symm⟩
    · exact .inr ⟨hcome.of_agree hagree.symm, hbroken⟩
  case length =>
    intro hstays hbody hplain n hn hle
    obtain ⟨hnone, -⟩ | ⟨m, hframing, hm⟩ := framing_of_lengths h.sound hstays hbody hplain
    · exact absurd hn (hnone n)
    · obtain rfl := (hm n).mp hn
      rwa [consume_sized hidle h hframing hle] at hcome
  case lengthPart =>
    intro hstays hbody hplain n hn hlt
    obtain ⟨hnone, -⟩ | ⟨m, hframing, hm⟩ := framing_of_lengths h.sound hstays hbody hplain
    · exact absurd hn (hnone n)
    · obtain rfl := (hm n).mp hn
      rwa [consume_sizedPart hidle h hframing hlt] at hcome
  case request =>
    intro hstays hbody hplain hnone hkind
    subst hkind
    obtain ⟨-, hframing⟩ | ⟨m, -, hm⟩ := framing_of_lengths h.sound hstays hbody hplain
    · rwa [consume_bodyless hidle h hframing] at hcome
    · exact absurd ((hm m).mpr rfl) (hnone m)
  case response =>
    intro hstays hbody hplain hnone hkind
    subst hkind
    obtain ⟨-, hframing⟩ | ⟨m, -, hm⟩ := framing_of_lengths h.sound hstays hbody hplain
    · rw [consume_endless hidle h hframing] at hcome
      refine ⟨hcome, ?_⟩
      rw [hcome.reader]
      rfl
    · exact absurd ((hm m).mpr rfl) (hnone m)

/-- The head of a response with chunks and a length. -/
def ambiguousHead : Bytes :=
  Utf8.encode "HTTP/1.1 200 OK\r\nContent-Length: 9\r\nTransfer-Encoding: gzip, chunked\r\n\r\n"

/-- That head, cut before its empty line, a chunked body and the beginning of another response. -/
def ambiguousPieces : List Bytes :=
  [ambiguousHead.take 30, ambiguousHead.drop 30 ++ Utf8.encode "1\r", Utf8.encode "\na\r\n0\r\n\r\nHTT"]

/-- The head of a request with a length. -/
def putHead : Bytes := Utf8.encode "PUT / HTTP/1.1\r\ncontent-length: 012\t\r\n\r\n"

/-- That head, cut in the length, a body of twelve bytes and the beginning of another request. -/
def putPieces : List Bytes :=
  [putHead.take 33, putHead.drop 33 ++ Utf8.encode "abcdef", Utf8.encode "ghijklGET"]

theorem ambiguousPieces_end :
    (∃ head start,
      (Accepted .response {} ambiguousHead head start .chunked ∧
        (∀ piece ∈ ambiguousPieces, piece ≠ []) ∧
        ambiguousPieces.flatten = ambiguousHead ++ Utf8.encode "1\r\na\r\n0\r\n\r\nHTT") ∧
      EndsByRule {} ambiguousHead (Utf8.encode "1\r\na\r\n0\r\n\r\nHTT") head start
        (({} : Reader .response).feedAll ambiguousPieces)) ∧
    ∃ head start,
      (Accepted .request {} putHead head start (.length 12) ∧
        (∀ piece ∈ putPieces, piece ≠ []) ∧
        putPieces.flatten = putHead ++ Utf8.encode "abcdefghijklGET") ∧
      (({} : Reader .request).feedAll putPieces).ComeTo
        (.behind (messageEvents head start (Utf8.encode "abcdefghijkl")) (putHead.length + 12)
          (consume { start } (Utf8.encode "GET"))) := by
  constructor
  · have haccepted : Accepted .response {} ambiguousHead
        ⟨.status 1 200 (Utf8.encode "OK"),
          [⟨Utf8.encode "Content-Length", Utf8.encode "9"⟩,
            ⟨Utf8.encode "Transfer-Encoding", Utf8.encode "gzip, chunked"⟩]⟩
        { status := 200, version := 1 } .chunked :=
      ⟨by decide +kernel, by decide +kernel, by decide, by decide +kernel⟩
    have hne : ∀ piece ∈ ambiguousPieces, piece ≠ [] := by decide +kernel
    have hpieces : ambiguousPieces.flatten =
        ambiguousHead ++ Utf8.encode "1\r\na\r\n0\r\n\r\nHTT" := by decide +kernel
    exact ⟨_, _, ⟨haccepted, hne, hpieces⟩, endsByRule (r := {}) rfl haccepted hne hpieces⟩
  · have haccepted : Accepted .request {} putHead
        ⟨.request (Utf8.encode "PUT") (Utf8.encode "/") 1,
          [⟨Utf8.encode "content-length", Utf8.encode "012"⟩]⟩
        { method := some .put, version := 1 } (.length 12) :=
      ⟨by decide +kernel, by decide +kernel, by decide, by decide +kernel⟩
    have hne : ∀ piece ∈ putPieces, piece ≠ [] := by decide +kernel
    have hpieces : putPieces.flatten = putHead ++ Utf8.encode "abcdefghijklGET" := by
      decide +kernel
    have hstays : ¬ LeavesProtocol .request { method := some .put, version := 1 }
        [⟨Utf8.encode "content-length", Utf8.encode "012"⟩] :=
      mt switchesProtocol_iff.mpr (by decide +kernel)
    have hbody : ¬ ExcludesBody .request { method := some .put, version := 1 } :=
      mt excludesBody_iff.mpr (by decide)
    have hplain : ¬ EndsInChunked [⟨Utf8.encode "content-length", Utf8.encode "012"⟩] :=
      mt isChunked_iff.mpr (by decide +kernel)
    have hlength : GivesLength [⟨Utf8.encode "content-length", Utf8.encode "012"⟩] 12 :=
      ⟨_, List.mem_singleton_self _, by decide +kernel,
        ⟨[], Utf8.encode "012", [], by decide +kernel, by simp [Blanks], by simp [Blanks],
          by decide +kernel, [0, 1, 2], by decide +kernel, by decide⟩, by decide⟩
    have hends := endsByRule (r := {}) rfl haccepted hne hpieces
    exact ⟨_, _, ⟨haccepted, hne, hpieces⟩,
      hends.length hstays hbody hplain 12 hlength (by decide +kernel)⟩

end HttpWire.Reader
