import HttpWire.Proofs.Reader.Calls
/-!
# The protocol of events

The order in which a reader reports, as a grammar: a message begins, a request has its target, then
come the fields, the end of the head, the pieces of the body and the end of the message. Over every
sequence of calls what a reader has reported is the beginning of a word of such messages.

The state of the reader says how far into a message its report is (`Reported`). Each step keeps the
two in accord, and so do all calls (`feedAll_follows`).
-/

namespace HttpWire.Reader

variable {kind : Kind}

/-! ## The grammar -/

/-- What is reported of a start line before the fields: the target of a request, once, and nothing
of a response. -/
inductive TargetPart : Kind → List Event → Prop where
  | request (bytes : Bytes) : TargetPart .request [.target bytes]
  | response : TargetPart .response []

/-- What is reported of the fields: a name and then a value, any number of times. -/
inductive FieldsPart : List Event → Prop where
  | none : FieldsPart []
  | more (name value : Bytes) {later : List Event} (hlater : FieldsPart later) :
      FieldsPart (.fieldName name :: .fieldValue value :: later)

/-- A message whose head is complete, without its end: its beginning, its target if it is a request,
names and values of fields in turn, the end of its head and the pieces of its body. -/
inductive OpenMessage (kind : Kind) : Start → List Event → Prop where
  | intro {target fields : List Event} (htarget : TargetPart kind target)
      (hfields : FieldsPart fields) (start : Start) (pieces : List Bytes)
      (hpieces : ∀ piece ∈ pieces, piece ≠ []) :
      OpenMessage kind start
        ([.messageBegin] ++ target ++ fields ++ [.headersComplete start] ++ pieces.map .body)

/-- A whole message. -/
def IsMessage (kind : Kind) (events : List Event) : Prop :=
  ∃ start opened, OpenMessage kind start opened ∧ events = opened ++ [.messageComplete start]

/-- Any number of messages, one after another. -/
def IsWord (kind : Kind) (events : List Event) : Prop :=
  ∃ messages : List (List Event),
    (∀ message ∈ messages, IsMessage kind message) ∧ events = messages.flatten

theorem isWord_nil (kind : Kind) : IsWord kind [] := ⟨[], by simp, rfl⟩

theorem isWord_of_isMessage {message : List Event} (h : IsMessage kind message) :
    IsWord kind message := ⟨[message], by simpa using h, by simp⟩

theorem IsWord.append {word word' : List Event} (h : IsWord kind word) (h' : IsWord kind word') :
    IsWord kind (word ++ word') := by
  obtain ⟨messages, hmessages, rfl⟩ := h
  obtain ⟨messages', hmessages', rfl⟩ := h'
  refine ⟨messages ++ messages', fun message hmem => ?_, List.flatten_append.symm⟩
  rcases List.mem_append.mp hmem with hfirst | hlater
  · exact hmessages message hfirst
  · exact hmessages' message hlater

theorem exists_targetPart (kind : Kind) : ∃ target, TargetPart kind target := by
  cases kind with
  | request => exact ⟨_, .request []⟩
  | response => exact ⟨_, .response⟩

theorem fieldsPart_flatMap (fields : List Field) : FieldsPart (fields.flatMap fieldEvents) := by
  induction fields with
  | nil => exact .none
  | cons field fields ih => exact .more field.name field.value ih

/-- The events of a head are a target and fields. -/
theorem headEvents_eq (head : Head) :
    ∃ target, TargetPart head.start.kind target ∧
      headEvents head = target ++ head.fields.flatMap fieldEvents := by
  obtain ⟨start, fields⟩ := head
  cases start with
  | request method target version => exact ⟨_, .request target, rfl⟩
  | status version code reason => exact ⟨_, .response, rfl⟩

theorem openMessage_of_head {head : Head} (hkind : head.start.kind = kind) (start : Start) :
    OpenMessage kind start ([.messageBegin] ++ headEvents head ++ [.headersComplete start]) := by
  obtain ⟨target, htarget, heq⟩ := headEvents_eq head
  rw [hkind] at htarget
  have hopen := OpenMessage.intro htarget (fieldsPart_flatMap head.fields) start [] (by simp)
  rw [heq]
  simpa using hopen

namespace OpenMessage

variable {start : Start} {opened : List Event}

/-- More pieces of the body leave the message open. -/
theorem more (h : OpenMessage kind start opened) {pieces : List Bytes}
    (hpieces : ∀ piece ∈ pieces, piece ≠ []) :
    OpenMessage kind start (opened ++ pieces.map .body) := by
  cases h with
  | intro htarget hfields start front hfront =>
    rw [List.append_assoc, ← List.map_append]
    refine .intro htarget hfields start (front ++ pieces) fun piece hmem => ?_
    rcases List.mem_append.mp hmem with hfirst | hlater
    · exact hfront piece hfirst
    · exact hpieces piece hlater

theorem complete (h : OpenMessage kind start opened) :
    IsMessage kind (opened ++ [.messageComplete start]) := ⟨start, opened, h, rfl⟩

end OpenMessage

/-! ## How far the report is -/

/-- Whether some message begins with these events. -/
def BeginsMessage (kind : Kind) (events : List Event) : Prop :=
  ∃ message, IsMessage kind message ∧ events <+: message

theorem OpenMessage.begins {start : Start} {opened : List Event}
    (h : OpenMessage kind start opened) : BeginsMessage kind opened :=
  ⟨_, h.complete, List.prefix_append _ _⟩

theorem beginsMessage_of_head {head : Head} (hkind : head.start.kind = kind) :
    BeginsMessage kind ([.messageBegin] ++ headEvents head) := by
  obtain ⟨message, hmessage, hbegins⟩ := (openMessage_of_head hkind {}).begins
  exact ⟨message, hmessage, (List.prefix_append _ _).trans hbegins⟩

theorem beginsMessage_messageBegin (kind : Kind) : BeginsMessage kind [.messageBegin] := by
  obtain ⟨target, htarget⟩ := exists_targetPart kind
  have hopen := OpenMessage.intro htarget .none {} [] (by simp)
  obtain ⟨message, hmessage, hbegins⟩ := hopen.begins
  refine ⟨message, hmessage, List.IsPrefix.trans ?_ hbegins⟩
  simp

theorem beginsMessage_nil (kind : Kind) : BeginsMessage kind [] := by
  obtain ⟨message, hmessage, -⟩ := beginsMessage_messageBegin kind
  exact ⟨message, hmessage, List.nil_prefix⟩

/-- What a reader has reported of the message that it is in. -/
def Reported (r : Reader kind) (events : List Event) : Prop :=
  match r.state with
  | .head buffer => events = if buffer = #[] then [] else [.messageBegin]
  | .body _ => OpenMessage kind r.start events
  | .switched => events = []
  | .failed _ => BeginsMessage kind events

/-- Whether a reader has reported whole messages and, of the one that it is in, as much as its state
says. -/
def Follows (r : Reader kind) (events : List Event) : Prop :=
  ∃ word part, IsWord kind word ∧ r.Reported part ∧ events = word ++ part

section
variable {r : Reader kind} {part : List Event}

theorem follows_of_reported (h : r.Reported part) : r.Follows part :=
  ⟨[], part, isWord_nil kind, h, rfl⟩

theorem follows_of_nothing (h : r.Reported part) : r.Follows (part ++ []) := by
  rw [List.append_nil]
  exact follows_of_reported h

theorem follows_of_isMessage (hmessage : IsMessage kind part) (hidle : r.Reported []) :
    r.Follows part := ⟨part, [], isWord_of_isMessage hmessage, hidle, (List.append_nil _).symm⟩

/-- Inside a head only its beginning has been reported. -/
theorem Reported.opening {old : Array UInt8} (h : r.Reported part) (hstate : r.state = .head old) :
    part ++ r.opening = [.messageBegin] := by
  rw [Reported, hstate] at h
  dsimp only at h
  by_cases hold : old = #[]
  · have hidle : r.state = .idle := by rw [hstate, hold, State.idle]
    rw [if_pos hold] at h
    rw [h, Reader.opening, if_pos hidle]
    rfl
  · have hbusy : r.state ≠ .idle := by
      intro hidle
      rw [hstate] at hidle
      injection hidle with hnil
      exact hold hnil
    rw [if_neg hold] at h
    rw [h, Reader.opening, if_neg hbusy]
    rfl

theorem Reported.of_body {body : Body} (h : r.Reported part) (hstate : r.state = .body body) :
    OpenMessage kind r.start part := by
  rw [Reported, hstate] at h
  exact h

/-- In every state what has been reported begins a message. -/
theorem Reported.begins (h : r.Reported part) : BeginsMessage kind part := by
  cases hstate : r.state with
  | body body => exact (h.of_body hstate).begins
  | head old =>
    obtain ⟨message, hmessage, hbegins⟩ := beginsMessage_messageBegin kind
    rw [← h.opening hstate] at hbegins
    exact ⟨message, hmessage, (List.prefix_append _ _).trans hbegins⟩
  | switched =>
    rw [Reported, hstate] at h
    rw [h]
    exact beginsMessage_nil kind
  | failed error =>
    rw [Reported, hstate] at h
    exact h

/-- Wherever a reader fails, what it has reported by then begins a message. -/
theorem Reported.fails (h : r.Reported part) {events : List Event}
    (hevents : r.BeforeFailure events) : BeginsMessage kind (part ++ events) := by
  cases hevents with
  | head head hstate hkind =>
    rw [← List.append_assoc, h.opening hstate]
    exact beginsMessage_of_head hkind
  | pieces pieces hstate hpieces => exact ((h.of_body hstate).more hpieces).begins
  | nothing =>
    by_cases hidle : r.state = .idle
    · rw [h.opening hidle]
      exact beginsMessage_messageBegin kind
    · rw [Reader.opening, if_neg hidle, List.append_nil]
      exact h.begins

end

/-! ## What every step keeps -/

/-- A head that has been reported leaves its message open, or completes it if it has no body. -/
theorem follows_afterHead (limits : Limits) {start : Start} {opened : List Event}
    (h : OpenMessage kind start opened) (framing : Framing) :
    Follows (⟨limits, State.afterHead framing, start⟩ : Reader kind)
      (opened ++ if (State.afterHead framing).inBody then [] else [.messageComplete start]) := by
  by_cases hbody : (State.afterHead framing).inBody = true
  · rw [if_pos hbody, List.append_nil]
    refine follows_of_reported ?_
    cases framing with
    | protocolSwitch => cases hbody
    | chunked => exact h
    | untilEnd => exact h
    | length n =>
      cases n with
      | zero => cases hbody
      | succ n => exact h
  · rw [if_neg hbody]
    refine follows_of_isMessage h.complete ?_
    cases framing with
    | protocolSwitch => rfl
    | chunked => exact absurd rfl hbody
    | untilEnd => exact absurd rfl hbody
    | length n =>
      cases n with
      | zero => rfl
      | succ n => exact absurd rfl hbody

/-- **A step goes on in the message that the reader is in**, and may complete it. -/
theorem StepTo.follows {r : Reader kind} {input : Bytes} {p : Progress kind}
    (h : r.StepTo input p) (hsound : r.state.Sound r.limits) (hinput : input ≠ [])
    {part : List Event} (hpart : r.Reported part) : p.reader.Follows (part ++ p.events) := by
  cases h with
  | failed error hevents => exact follows_of_reported (hpart.fails hevents)
  | skipped n hstate =>
    rw [Reported, hstate] at hpart
    exact follows_of_nothing hpart
  | waited buffer n hstate hbuffer =>
    refine follows_of_reported ?_
    show part ++ r.opening = if buffer = #[] then [] else [.messageBegin]
    rw [if_neg hbuffer, hpart.opening hstate]
  | opened head start framing n hstate hkind =>
    have hopen := openMessage_of_head hkind start
    rw [← hpart.opening hstate] at hopen
    have hfollows := follows_afterHead r.limits hopen framing
    simpa [moveTo] using hfollows
  | read pieces body n hstate hbody hpieces =>
    exact follows_of_reported ((hpart.of_body hstate).more (hpieces hsound hinput))
  | completed pieces n hstate hpieces =>
    have hmessage := ((hpart.of_body hstate).more (hpieces hsound hinput)).complete
    rw [List.append_assoc] at hmessage
    exact follows_of_isMessage hmessage rfl
  | stopped hstate =>
    rw [Reported, hstate] at hpart
    exact follows_of_nothing hpart

/-- **So does the end of the input.** -/
theorem FinishTo.follows {r : Reader kind} {p : Progress kind} (h : r.FinishTo p)
    {part : List Event} (hpart : r.Reported part) : p.reader.Follows (part ++ p.events) := by
  cases h with
  | between hstate =>
    rw [Reported, hstate] at hpart
    exact follows_of_nothing hpart
  | completed hstate => exact follows_of_isMessage (hpart.of_body hstate).complete rfl
  | cutOff hinside => exact follows_of_nothing hpart.begins
  | stopped hstate =>
    rw [Reported, hstate] at hpart
    exact follows_of_nothing hpart
  | failed error hstate => exact follows_of_nothing hpart.begins

/-- What one message adds to the report, the report as a whole gains. -/
theorem Follows.extend {r s : Reader kind} {events more : List Event} (h : r.Follows events)
    (hmore : ∀ part, r.Reported part → s.Follows (part ++ more)) : s.Follows (events ++ more) := by
  obtain ⟨word, part, hword, hpart, rfl⟩ := h
  obtain ⟨word', part', hword', hpart', heq⟩ := hmore part hpart
  refine ⟨word ++ word', part', hword.append hword', hpart', ?_⟩
  rw [List.append_assoc, heq, List.append_assoc]

/-! ## Whole runs -/

/-- **What has been reported over any calls** is as much as the state of the reader says. -/
theorem feedAll_follows {r : Reader kind} (hidle : r.state = .idle) (inputs : List Bytes) :
    (r.feedAll inputs).reader.Follows (r.feedAll inputs).events := by
  have hstart : r.state.Sound r.limits ∧ r.Follows [] := by
    rw [Follows]
    refine ⟨by rw [hidle]; exact State.sound_idle _, [], [], isWord_nil kind, ?_, rfl⟩
    rw [Reported, hidle]
    rfl
  -- Soundness goes along: without it a piece of a body could be empty.
  have hkeeps := feedAll_keeps (fun r events => r.state.Sound r.limits ∧ r.Follows events)
    (fun r events input hinput hr => ?_) (fun r events hr => ?_) [] hstart inputs
  · exact hkeeps.2
  · have hstep := step_stepTo r input
    exact ⟨hstep.sound hr.1, hr.2.extend fun part hpart => hstep.follows hr.1 hinput hpart⟩
  · have hfinish := finish_finishTo r
    exact ⟨hfinish.sound, hr.2.extend fun part hpart => hfinish.follows hpart⟩

/-- A report begins a word. -/
theorem Follows.begins {r : Reader kind} {events : List Event} (h : r.Follows events) :
    ∃ word, IsWord kind word ∧ events <+: word := by
  obtain ⟨word, part, hword, hpart, rfl⟩ := h
  obtain ⟨message, hmessage, hbegins⟩ := hpart.begins
  refine ⟨word ++ message, hword.append (isWord_of_isMessage hmessage), ?_⟩
  exact (List.prefix_append_right_inj word).mpr hbegins

theorem FieldsPart.not_mem_body {fields : List Event} (h : FieldsPart fields) (piece : Bytes) :
    .body piece ∉ fields := by
  induction h with
  | none => simp
  | more name value hlater ih => simpa using ih

theorem OpenMessage.body_ne_nil {start : Start} {opened : List Event}
    (h : OpenMessage kind start opened) {piece : Bytes} (hmem : .body piece ∈ opened) :
    piece ≠ [] := by
  cases h with
  | intro htarget hfields start pieces hpieces =>
    rcases List.mem_append.mp hmem with hhead | hbody
    · -- What comes before the body has no pieces of one.
      have hnone := hfields.not_mem_body piece
      cases htarget <;> simp [hnone] at hhead
    · obtain ⟨piece', hmem', heq⟩ := List.mem_map.mp hbody
      cases heq
      exact hpieces piece hmem'

theorem IsWord.body_ne_nil {word : List Event} (h : IsWord kind word) {piece : Bytes}
    (hmem : .body piece ∈ word) : piece ≠ [] := by
  obtain ⟨messages, hmessages, rfl⟩ := h
  obtain ⟨message, hmessage, hpiece⟩ := List.mem_flatten.mp hmem
  obtain ⟨start, opened, hopen, rfl⟩ := hmessages message hmessage
  rcases List.mem_append.mp hpiece with hopened | hlast
  · exact hopen.body_ne_nil hopened
  · simp at hlast

/-- **The protocol of events.** Whatever the calls after a reset are, and a new reader is as good as
one that was reset, and whatever goes wrong in them: the events that they report begin a word of
whole messages, in which a request has its target once and a response has none, and no piece of a
body is empty. Once a call has failed, no later one reports anything and all of them return its
error. Once the reader has stopped at a switch of protocols, no later call reports or consumes
anything. -/
theorem feedAll_keeps_protocol (r : Reader kind) (before after : List Bytes) :
    let calls := r.reset.feedAll before
    let all := r.reset.feedAll (before ++ after)
    (∃ word, IsWord kind word ∧ calls.events <+: word) ∧
      (∀ piece, .body piece ∈ calls.events → piece ≠ []) ∧
      (∀ error, .error error ∈ calls.results →
        all.events = calls.events ∧
          all.results = calls.results ++ after.map fun _ => .error error) ∧
      (calls.reader.isSwitched = true →
        all.events = calls.events ∧ all.results = calls.results ++ after.map fun _ => .ok 0) := by
  intro calls all
  have hall : all = ⟨calls.events ++ (calls.reader.feedAll after).events,
      (calls.reader.feedAll after).reader,
      calls.results ++ (calls.reader.feedAll after).results⟩ := feedAll_append ..
  obtain ⟨word, hword, hbegins⟩ := (feedAll_follows (r := r.reset) rfl before).begins
  refine ⟨⟨word, hword, hbegins⟩, fun piece hpiece => ?_, fun error herror => ?_,
    fun hswitched => ?_⟩
  · exact hword.body_ne_nil (hbegins.subset hpiece)
  · have hstopped := feed_of_failed (feedAll_failsForGood herror)
    rw [hall, feedAll_of_stopped hstopped, List.append_nil]
    exact ⟨rfl, rfl⟩
  · have hstate : calls.reader.state = .switched := by simpa [isSwitched] using hswitched
    rw [hall, feedAll_of_stopped (feed_of_switched hstate), List.append_nil]
    exact ⟨rfl, rfl⟩

/-- A request, cut in a name, with a chunk that nothing follows but bytes that frame no chunk. -/
def misframedCalls : List Bytes :=
  [Utf8.encode "PUT /a HTTP/1.1\r\nTransfer-Enc",
    Utf8.encode "oding: chunked\r\n\r\n1\r\nb\r\nz\r\n"]

/-- A request, a request for a tunnel and what is sent through that. -/
def tunnelCalls : List Bytes :=
  [Utf8.encode "GET /a HTTP/1.1\r\n\r\nCONNECT b:1 HTTP/1.1\r\n\r\nx"]

theorem protocol_of_misframed_and_tunnel :
    let later := [[], Utf8.encode "GET"]
    let misframed := ({} : Reader .request).reset.feedAll misframedCalls
    let misframedOn := ({} : Reader .request).reset.feedAll (misframedCalls ++ later)
    let tunnel := ({} : Reader .request).reset.feedAll tunnelCalls
    let tunnelOn := ({} : Reader .request).reset.feedAll (tunnelCalls ++ later)
    (misframed.events =
        [.messageBegin, .target (Utf8.encode "/a"), .fieldName (Utf8.encode "Transfer-Encoding"),
          .fieldValue (Utf8.encode "chunked"),
          .headersComplete { method := some .put, version := 1 }, .body (Utf8.encode "b")] ∧
      misframed.results = [.ok 29, .error .invalidChunkSize] ∧
      tunnel.events =
        [.messageBegin, .target (Utf8.encode "/a"),
          .headersComplete { method := some .get, version := 1 },
          .messageComplete { method := some .get, version := 1 },
          .messageBegin, .target (Utf8.encode "b:1"),
          .headersComplete { method := some .connect, version := 1 },
          .messageComplete { method := some .connect, version := 1 }] ∧
      tunnel.results = [.ok 43]) ∧
    (∃ word, IsWord .request word ∧ misframed.events <+: word) ∧
    (∃ word, IsWord .request word ∧ tunnel.events <+: word) ∧
    (misframedOn.events = misframed.events ∧ misframedOn.results =
        misframed.results ++ [.error .invalidChunkSize, .error .invalidChunkSize]) ∧
    (tunnelOn.events = tunnel.events ∧ tunnelOn.results = tunnel.results ++ [.ok 0, .ok 0]) := by
  intro later misframed misframedOn tunnel tunnelOn
  obtain ⟨hword, -, hfailed, -⟩ :=
    feedAll_keeps_protocol ({} : Reader .request) misframedCalls later
  obtain ⟨hword', -, -, hswitched⟩ :=
    feedAll_keeps_protocol ({} : Reader .request) tunnelCalls later
  exact ⟨by decide +kernel, hword, hword', hfailed .invalidChunkSize (by decide +kernel),
    hswitched (by decide +kernel)⟩

end HttpWire.Reader
