import HttpWire.Proofs.Reader.Cut
/-!
# Whole messages

What a reader between messages does with a head that it accepts and what follows it: it reports the
head and goes on as the framing says. For each framing there is one equation that tells what it does
with the body.
-/

namespace HttpWire.Reader

variable {kind : Kind}

/-! ## Line breaks -/

theorem behind_nothing (p : Progress kind) : .behind [] 0 p = p := by
  obtain ⟨events, r, result⟩ := p
  cases result <;> simp [Progress.behind, Except.map]

section
variable {r : Reader kind} (hidle : r.state = .idle)
include hidle

/-- All line breaks at the front are skipped. -/
theorem consume_skip (input : Bytes) :
    r.consume input =
      .behind [] (input.takeWhile Byte.isBreak).length
        (r.consume (input.dropWhile Byte.isBreak)) := by
  obtain ⟨limits, state, start⟩ := r
  subst hidle
  cases input with
  | nil => exact (behind_nothing _).symm
  | cons b rest =>
    by_cases hb : Byte.isBreak b = true
    · have hcut : rest.takeWhile Byte.isBreak ++ rest.dropWhile Byte.isBreak = rest :=
        List.takeWhile_append_dropWhile
      have hdrop : rest.drop (rest.takeWhile Byte.isBreak).length =
          rest.dropWhile Byte.isBreak := by
        calc rest.drop (rest.takeWhile Byte.isBreak).length
            = (rest.takeWhile Byte.isBreak ++ rest.dropWhile Byte.isBreak).drop
                (rest.takeWhile Byte.isBreak).length := by rw [hcut]
          _ = rest.dropWhile Byte.isBreak := List.drop_left
      rw [consume_of_moveTo (step_idle_of_break hb) (Nat.succ_pos _) (List.cons_ne_nil b rest),
        List.drop_succ_cons, hdrop, List.takeWhile_cons_of_pos hb, List.dropWhile_cons_of_pos hb]
      rfl
    · rw [List.takeWhile_cons_of_neg hb, List.dropWhile_cons_of_neg hb]
      exact (behind_nothing _).symm

/-- So line breaks in front of anything make no difference but to the count. -/
theorem consume_breaks {breaks : Bytes} (hbreaks : ∀ b ∈ breaks, Byte.isBreak b = true)
    (rest : Bytes) :
    r.consume (breaks ++ rest) = .behind [] breaks.length (r.consume rest) := by
  rw [consume_skip hidle (breaks ++ rest), List.takeWhile_append_of_pos hbreaks,
    List.dropWhile_append_of_pos hbreaks, consume_skip hidle rest, behind_behind,
    List.length_append]
  rfl

end

/-! ## Heads -/

/-- A head that a reader with these limits accepts: it is complete, it fits, its method is known and
its lengths are sound. -/
structure Accepted (kind : Kind) (limits : Limits) (block : Bytes) (head : Head) (start : Start)
    (framing : Framing) : Prop where
  parse : Head.parse kind limits.maxFields block = .done head []
  fits : block.length ≤ limits.maxHeadLength
  known : head.start.start = .ok start
  sound : Framing.ofHead kind start head.fields = .ok framing

theorem Accepted.ne_nil {limits : Limits} {block : Bytes} {head : Head} {start : Start}
    {framing : Framing} (h : Accepted kind limits block head start framing) : block ≠ [] := by
  intro hnil
  have hparse := h.parse
  rw [hnil] at hparse
  cases kind <;> cases hparse

/-- The events of a message up to the end of its head. -/
def openEvents (head : Head) (start : Start) : List Event :=
  [.messageBegin] ++ headEvents head ++ [.headersComplete start]

/-- The end of a message that is complete with its head. -/
def endEvents (framing : Framing) (start : Start) : List Event :=
  if (State.afterHead framing).inBody then [] else [.messageComplete start]

/-- What fits is taken, with some of what follows it. -/
theorem exists_take_append {block : Bytes} {n : Nat} (h : block.length ≤ n) (rest : Bytes) :
    ∃ more, (block ++ rest).take n = block ++ more := by
  rw [List.take_append, List.take_of_length_le h]
  exact ⟨_, rfl⟩

/-- A head takes the step up to its end, whatever follows it. -/
theorem readHead_append {r : Reader kind} {events : List Event} {block rest : Bytes} {head : Head}
    (hparse : Head.parse kind r.limits.maxFields block = .done head [])
    (hlength : block.length ≤ r.limits.maxHeadLength) :
    r.readHead events #[] (block ++ rest) = r.openMessage events head block.length := by
  obtain ⟨more, htaken⟩ := exists_take_append hlength rest
  have hread : r.readHead events #[] (block ++ rest) =
      r.openMessage events head ((block ++ more).length - more.length) :=
    readHead_of_done rfl htaken (Head.parse_append hparse more)
  rw [hread, List.length_append, Nat.add_sub_cancel]

/-- **A head that is accepted is reported**, and the reader goes on as its framing says. -/
theorem consume_head {r : Reader kind} (hidle : r.state = .idle) {block : Bytes} {head : Head}
    {start : Start} {framing : Framing} (h : Accepted kind r.limits block head start framing)
    (rest : Bytes) :
    r.consume (block ++ rest) =
      .behind (openEvents head start ++ endEvents framing start) block.length
        (consume ⟨r.limits, State.afterHead framing, start⟩ rest) := by
  obtain ⟨limits, state, start'⟩ := r
  subst hidle
  have hne := h.ne_nil
  -- No line break is skipped in front of a head.
  have hread : step (⟨limits, .idle, start'⟩ : Reader kind) (block ++ rest) =
      readHead { limits, start := start' } [.messageBegin] #[] (block ++ rest) := by
    obtain ⟨b, block, rfl⟩ := List.exists_cons_of_ne_nil hne
    exact step_idle_of_not_break (Head.isBreak_of_parse_done h.parse)
  have hstep : step (⟨limits, .idle, start'⟩ : Reader kind) (block ++ rest) =
      moveTo { limits, start } (openEvents head start ++ endEvents framing start)
        (State.afterHead framing) block.length := by
    rw [hread, readHead_append h.parse h.fits, openMessage, h.known]
    dsimp only
    rw [h.sound]
    simp [openEvents, endEvents, moveTo]
  rw [consume_of_moveTo hstep (List.length_pos_iff.mpr hne) (by simp [hne]), List.drop_left]

/-! ## Bodies -/

/-- The events of a body that comes in one piece. -/
def bodyEvents (body : Bytes) : List Event := if body = [] then [] else [.body body]

/-- The events of a message that comes in one piece. -/
def messageEvents (head : Head) (start : Start) (body : Bytes) : List Event :=
  openEvents head start ++ bodyEvents body ++ [.messageComplete start]

section
variable {limits : Limits} {start : Start}

/-- A body of known length is over with its last byte. -/
theorem consume_length {body : Bytes} (hbody : body ≠ []) (rest : Bytes) :
    consume (⟨limits, .body (.length body.length), start⟩ : Reader kind) (body ++ rest) =
      .behind [.body body, .messageComplete start] body.length (consume { limits, start } rest) := by
  have hstep : step (⟨limits, .body (.length body.length), start⟩ : Reader kind) (body ++ rest) =
      moveTo { limits, start } [.body body, .messageComplete start] .idle body.length := by
    simp [step, readLength, complete]
  rw [consume_of_moveTo hstep (List.length_pos_iff.mpr hbody) (by simp [hbody]), List.drop_left]

/-- Before that it goes on. -/
theorem consume_length_of_lt {n : Nat} {input : Bytes} (hlength : input.length < n) :
    consume (⟨limits, .body (.length n), start⟩ : Reader kind) input =
      ⟨bodyEvents input, ⟨limits, .body (.length (n - input.length)), start⟩,
        .ok input.length⟩ := by
  by_cases hinput : input = []
  · rw [hinput, consume_nil]
    rfl
  · have htake : input.take n = input := List.take_of_length_le (Nat.le_of_lt hlength)
    have hstep : step (⟨limits, .body (.length n), start⟩ : Reader kind) input =
        moveTo { limits, start } [.body input] (.body (.length (n - input.length)))
          input.length := by
      simp only [step, readLength, htake]
      rw [if_neg (Nat.not_le.mpr hlength)]
    rw [consume_of_moveTo hstep (List.length_pos_iff.mpr hinput) hinput, List.drop_length,
      consume_nil, bodyEvents, if_neg hinput]
    rfl

/-- A body that lasts until the input ends takes everything. -/
theorem consume_untilEnd (input : Bytes) :
    consume (⟨limits, .body .untilEnd, start⟩ : Reader kind) input =
      ⟨bodyEvents input, ⟨limits, .body .untilEnd, start⟩, .ok input.length⟩ := by
  by_cases hinput : input = []
  · rw [hinput, consume_nil]
    rfl
  · have hstep : step (⟨limits, .body .untilEnd, start⟩ : Reader kind) input =
        moveTo { limits, start } [.body input] (.body .untilEnd) input.length := rfl
    rw [consume_of_moveTo hstep (List.length_pos_iff.mpr hinput) hinput, List.drop_length,
      consume_nil, bodyEvents, if_neg hinput]
    rfl

/-- What a reader does with chunks, the decoder tells. -/
theorem step_chunked (decoder : Chunked.Decoder) (input : Bytes) :
    step (⟨limits, .body (.chunked decoder), start⟩ : Reader kind) input =
      closeChunks { limits, start } (decoder.decode input) input.length := rfl

/-- A chunked body is over where the decoder says so. -/
theorem consume_chunked {decoder : Chunked.Decoder} {body rest : Bytes}
    (h : (decoder.decode (body ++ rest)).outcome = .finished rest) :
    consume (⟨limits, .body (.chunked decoder), start⟩ : Reader kind) (body ++ rest) =
      .behind ((decoder.decode (body ++ rest)).pieces.map .body ++ [.messageComplete start])
        body.length (consume { limits, start } rest) := by
  have hlength := Chunked.Decoder.length_of_decode_finished h
  rw [List.length_append] at hlength
  have hinput : body ++ rest ≠ [] := by
    intro hnil
    obtain ⟨rfl, rfl⟩ := List.append_eq_nil_iff.mp hnil
    exact absurd hlength (Nat.lt_irrefl _)
  have hstep : step (⟨limits, .body (.chunked decoder), start⟩ : Reader kind) (body ++ rest) =
      moveTo { limits, start }
        ((decoder.decode (body ++ rest)).pieces.map .body ++ [.messageComplete start]) .idle
        body.length := by
    rw [step_chunked, closeChunks, h]
    simp [complete]
  rw [consume_of_moveTo hstep (by omega) hinput, List.drop_left]

/-- Before that it goes on, or fails where the framing is broken. -/
theorem consume_chunked_of_more {decoder next : Chunked.Decoder} {input : Bytes}
    (h : (decoder.decode input).outcome = .more next) :
    consume (⟨limits, .body (.chunked decoder), start⟩ : Reader kind) input =
      ⟨(decoder.decode input).pieces.map .body, ⟨limits, .body (.chunked next), start⟩,
        .ok input.length⟩ := by
  by_cases hinput : input = []
  · subst hinput
    rw [Chunked.Decoder.decode_nil] at h ⊢
    cases h
    exact consume_nil _
  · have hstep : step (⟨limits, .body (.chunked decoder), start⟩ : Reader kind) input =
        moveTo { limits, start } ((decoder.decode input).pieces.map .body)
          (.body (.chunked next)) input.length := by
      rw [step_chunked, closeChunks, h]
    rw [consume_of_moveTo hstep (List.length_pos_iff.mpr hinput) hinput, List.drop_length,
      consume_nil]
    simp [Progress.behind, Progress.none, Except.map]

theorem consume_chunked_of_broken {decoder : Chunked.Decoder} {input : Bytes}
    (h : (decoder.decode input).outcome = .broken) :
    consume (⟨limits, .body (.chunked decoder), start⟩ : Reader kind) input =
      ⟨(decoder.decode input).pieces.map .body, ⟨limits, .failed .invalidChunkSize, start⟩,
        .error .invalidChunkSize⟩ := by
  cases input with
  | nil =>
    rw [Chunked.Decoder.decode_nil] at h
    cases h
  | cons b rest =>
    have hstep : step (⟨limits, .body (.chunked decoder), start⟩ : Reader kind) (b :: rest) =
        fail { limits, start } ((decoder.decode (b :: rest)).pieces.map .body)
          .invalidChunkSize := by
      rw [step_chunked, closeChunks, h]
    have herror : (step (⟨limits, .body (.chunked decoder), start⟩ : Reader kind)
        (b :: rest)).result = .error .invalidChunkSize := by
      rw [hstep]
      rfl
    rw [consume_of_error herror, hstep]
    rfl

end

/-! ## Messages of known length -/

/-- **A message in one piece** is reported from its head to its end, and leaves the reader between
messages. -/
theorem consume_message {r : Reader kind} (hidle : r.state = .idle) {block body : Bytes}
    {head : Head} {start : Start}
    (h : Accepted kind r.limits block head start (.length body.length)) (rest : Bytes) :
    r.consume (block ++ (body ++ rest)) =
      .behind (messageEvents head start body) (block.length + body.length)
        (consume { limits := r.limits, start } rest) := by
  rw [consume_head hidle h]
  by_cases hbody : body = []
  · subst hbody
    have hevents : messageEvents head start [] =
        openEvents head start ++ endEvents (.length ([] : Bytes).length) start := by
      simp [messageEvents, bodyEvents, endEvents, State.afterHead, State.inBody, State.idle]
    rw [hevents]
    rfl
  · obtain ⟨b, body, rfl⟩ := List.exists_cons_of_ne_nil hbody
    have hevents : messageEvents head start (b :: body) =
        openEvents head start ++ endEvents (.length (b :: body).length) start ++
          [.body (b :: body), .messageComplete start] := by
      simp [messageEvents, bodyEvents, endEvents, State.afterHead, State.inBody]
    rw [hevents, ← behind_behind, ← consume_length hbody]
    rfl

/-- A new reader that is fed one message. -/
theorem feed_message {limits : Limits} {block body : Bytes} {head : Head} {start : Start}
    (h : Accepted kind limits block head start (.length body.length)) :
    ({ limits } : Reader kind).feed (block ++ body) =
      ⟨messageEvents head start body, { limits, start }, .ok (block ++ body).length⟩ := by
  have hconsume := consume_message (r := ({ limits } : Reader kind)) rfl h []
  have hinput : block ++ body ≠ [] := by simp [h.ne_nil]
  rw [List.append_nil, consume_nil] at hconsume
  rw [feed_of_ne_nil hinput, hconsume]
  simp [Progress.behind, Progress.none, Except.map]

end HttpWire.Reader
