import HttpWire.Proofs.Reader.Balance
import HttpWire.Proofs.Reader.Boundary
/-!
# The end of the input

The end of the input completes a body that lasts until then, and is an error inside any other
message. So it tells a stream that was cut off from one that was not: it is accepted exactly when
every message that has begun is complete by then.

Which message is open when the input ends, the report tells (`LeavesOpen`): in a body it closes with
a head that was accepted, framed as the state says, and the pieces of the body that have come.
-/

namespace HttpWire

namespace Event

/-- Whether an event is a piece of a body. -/
def isPiece : Event → Bool
  | .body _ => true
  | _ => false

end Event

namespace Reader

open Event (begun completed joinBodies)

variable {kind : Kind}

/-! ## The message that is open -/

/-- Whether nothing has been reported, or the end of a message last. -/
def ClosesMessage (events : List Event) : Prop :=
  events = [] ∨ ∃ before start, events = before ++ [.messageComplete start]

/-- Whether a report closes with this head, which was accepted, and these pieces of its body. -/
def ClosesWith (kind : Kind) (limits : Limits) (head : Head) (start : Start) (framing : Framing)
    (pieces : List Bytes) (events : List Event) : Prop :=
  ∃ before block, Accepted kind limits block head start framing ∧
    events = before ++ (openEvents head start ++ pieces.map .body)

/-- What the report closes with: outside a message with the end of one, in a head with the beginning
of its message, and in a body with the head that was accepted and the pieces that have come. -/
def LeavesOpen (r : Reader kind) (events : List Event) : Prop :=
  match r.state with
  | .head buffer =>
    if buffer = #[] then ClosesMessage events else ∃ before, events = before ++ [.messageBegin]
  | .body body =>
    ∃ head pieces, ClosesWith kind r.limits head r.start (body.framing pieces) pieces events
  | .switched => ClosesMessage events
  | .failed _ => True

section
variable {r : Reader kind} {events : List Event}

theorem LeavesOpen.closesMessage (h : r.LeavesOpen events) (hrests : r.state.Rests) :
    ClosesMessage events := by
  rcases hrests with hstate | hstate
  · rw [LeavesOpen, hstate] at h
    exact h
  · rw [LeavesOpen, hstate] at h
    exact h

theorem LeavesOpen.opening (h : r.LeavesOpen events) {old : Array UInt8}
    (hstate : r.state = .head old) : ∃ before, events ++ r.opening = before ++ [.messageBegin] := by
  rw [LeavesOpen, hstate] at h
  dsimp only at h
  by_cases hold : old = #[]
  · have hidle : r.state = .idle := by rw [hstate, hold, State.idle]
    exact ⟨events, by rw [Reader.opening, if_pos hidle]⟩
  · rw [if_neg hold] at h
    obtain ⟨before, heq⟩ := h
    have hbusy : r.state ≠ .idle := by
      intro hidle
      rw [hstate] at hidle
      injection hidle with hnil
      exact hold hnil
    exact ⟨before, by rw [Reader.opening, if_neg hbusy, List.append_nil, heq]⟩

/-- An accepted head opens a body with its framing, or closes its message. -/
theorem leavesOpen_afterHead {limits : Limits} {block : Bytes} {head : Head} {start : Start}
    {framing : Framing} (h : Accepted kind limits block head start framing)
    (before : List Event) :
    LeavesOpen (⟨limits, State.afterHead framing, start⟩ : Reader kind)
      (before ++ (openEvents head start ++ endEvents framing start)) := by
  cases framing with
  | protocolSwitch => exact .inr ⟨_, start, (List.append_assoc ..).symm⟩
  | chunked => exact ⟨head, [], before, block, h, rfl⟩
  | untilEnd => exact ⟨head, [], before, block, h, rfl⟩
  | length n =>
    cases n with
    | zero => exact .inr ⟨_, start, (List.append_assoc ..).symm⟩
    | succ n =>
      refine ⟨head, [], before, block, ?_, rfl⟩
      simpa [Body.framing] using h

/-- With its head a message closes what was open before. -/
theorem LeavesOpen.opened (h : r.LeavesOpen events) {old : Array UInt8}
    (hstate : r.state = .head old) (head : Head) (start : Start) (framing : Framing) :
    ∃ before, events ++ (r.opening ++ headEvents head ++ .headersComplete start ::
        if (State.afterHead framing).inBody then [] else [.messageComplete start]) =
      before ++ (openEvents head start ++ endEvents framing start) := by
  obtain ⟨before, hbefore⟩ := h.opening hstate
  refine ⟨before, ?_⟩
  rw [← List.append_assoc, ← List.append_assoc, hbefore]
  simp [openEvents, endEvents]

/-- The head that a step completes is accepted. -/
theorem accepted_of_opened {old : Array UInt8} {input : Bytes} {head : Head} {start : Start}
    {framing : Framing} {n : Nat}
    (hparse : Head.parse kind r.limits.maxFields (old.toList ++ input.take n) = .done head [])
    (hstart : head.start.start = .ok start)
    (hframing : Framing.ofHead kind start head.fields = .ok framing)
    (hfits : old.size + n ≤ r.limits.maxHeadLength) :
    Accepted kind r.limits (old.toList ++ input.take n) head start framing := by
  refine ⟨hparse, ?_, hstart, hframing⟩
  have htake : (input.take n).length ≤ n := List.length_take_le n input
  rw [List.length_append, Array.length_toList]
  omega

/-- **A step leaves the report in accord with what is open.** -/
theorem StepTo.leavesOpen {input : Bytes} {p : Progress kind} (h : r.StepTo input p)
    (hsound : r.state.Sound r.limits) (hopen : r.LeavesOpen events) :
    p.reader.LeavesOpen (events ++ p.events) := by
  cases h with
  | failed error hevents => trivial
  | stopped hstate =>
    rw [LeavesOpen, hstate] at hopen
    exact (List.append_nil events).symm ▸ hopen
  | skipped n hstate =>
    rw [LeavesOpen, hstate] at hopen
    exact (List.append_nil events).symm ▸ hopen
  | completed pieces n hstate => exact .inr ⟨_, r.start, (List.append_assoc ..).symm⟩
  | waited buffer n hstate hbuffer =>
    show if buffer = #[] then ClosesMessage _ else _
    rw [if_neg hbuffer]
    exact hopen.opening hstate
  | @opened old head start framing n hstate hkind hstart hframing hparse hcount hfits =>
    obtain ⟨before, hevents⟩ := hopen.opened hstate head start framing
    have hafter := leavesOpen_afterHead
      (accepted_of_opened (hparse hsound) hstart hframing hfits) before
    rw [← hevents] at hafter
    exact hafter
  | read pieces body n hstate hbody hpieces hcount hlength hframing =>
    rw [LeavesOpen, hstate] at hopen
    obtain ⟨head, front, before, block, haccepted, rfl⟩ := hopen
    rw [← hframing] at haccepted
    refine ⟨head, front ++ pieces, before, block, haccepted, ?_⟩
    rw [List.map_append]
    simp only [List.append_assoc, moveTo]

/-- So does the end of the input. -/
theorem FinishTo.leavesOpen {p : Progress kind} (h : r.FinishTo p) (hopen : r.LeavesOpen events) :
    p.reader.LeavesOpen (events ++ p.events) := by
  cases h with
  | between hstate =>
    rw [LeavesOpen, hstate] at hopen
    exact (List.append_nil events).symm ▸ hopen
  | completed hstate => exact .inr ⟨_, r.start, rfl⟩
  | cutOff hinside => trivial
  | stopped hstate =>
    rw [LeavesOpen, hstate] at hopen
    exact (List.append_nil events).symm ▸ hopen
  | failed error hstate => trivial

end

/-- **And so do all calls.** -/
theorem feedAll_leavesOpen {r : Reader kind} (hidle : r.state = .idle) (inputs : List Bytes) :
    (r.feedAll inputs).reader.LeavesOpen (r.feedAll inputs).events := by
  have hstart : r.state.Sound r.limits ∧ r.LeavesOpen [] := by
    rw [LeavesOpen, hidle]
    exact ⟨State.sound_idle _, .inl rfl⟩
  have hkeeps := feedAll_keeps (fun r events => r.state.Sound r.limits ∧ r.LeavesOpen events)
    (fun r events input hinput hr => ?_) (fun r events hr => ?_) [] hstart inputs
  · exact hkeeps.2
  · have hstep := step_stepTo r input
    exact ⟨hstep.sound hr.1, hstep.leavesOpen hr.1 hr.2⟩
  · have hfinish := finish_finishTo r
    exact ⟨hfinish.sound, hfinish.leavesOpen hr.2⟩

/-! ## What the report tells of it -/

theorem flatMap_fieldEvents_injective {fields fields' : List Field}
    (h : fields.flatMap fieldEvents = fields'.flatMap fieldEvents) : fields = fields' := by
  induction fields generalizing fields' with
  | nil =>
    cases fields' with
    | nil => rfl
    | cons field' fields' => cases h
  | cons field fields ih =>
    cases fields' with
    | nil => cases h
    | cons field' fields' =>
      obtain ⟨name, value⟩ := field
      obtain ⟨name', value'⟩ := field'
      simp only [List.flatMap_cons, fieldEvents, List.cons_append, List.nil_append,
        List.cons.injEq, Event.fieldName.injEq, Event.fieldValue.injEq] at h
      obtain ⟨rfl, rfl, hlater⟩ := h
      rw [ih hlater]

/-- The events of a head tell its fields. -/
theorem fields_of_headEvents {head head' : Head} (hkind : head.start.kind = head'.start.kind)
    (h : headEvents head = headEvents head') : head.fields = head'.fields := by
  obtain ⟨start, fields⟩ := head
  obtain ⟨start', fields'⟩ := head'
  cases start with
  | request method target version =>
    cases start' with
    | request => exact flatMap_fieldEvents_injective (List.cons.inj h).2
    | status => cases hkind
  | status version code reason =>
    cases start' with
    | request => cases hkind
    | status => exact flatMap_fieldEvents_injective h

theorem headEvents_ne_messageBegin (head : Head) :
    ∀ event ∈ headEvents head, event ≠ .messageBegin := by
  obtain ⟨start, fields⟩ := head
  have hfields : ∀ event ∈ fields.flatMap fieldEvents, event ≠ .messageBegin := by
    intro event hmem
    obtain ⟨field, -, hevent⟩ := List.mem_flatMap.mp hmem
    simp only [fieldEvents, List.mem_cons, List.not_mem_nil, or_false] at hevent
    rcases hevent with rfl | rfl <;> rintro ⟨⟩
  cases start with
  | status version code reason => exact hfields
  | request method target version =>
    intro event hmem
    rcases List.mem_cons.mp hmem with rfl | hlater
    · rintro ⟨⟩
    · exact hfields event hlater

/-- Read from its end, a report that closes with an open message shows its head behind the pieces of
its body. -/
theorem dropWhile_reverse_open (before : List Event) (head : Head) (start : Start)
    (pieces : List Bytes) :
    (before ++ (openEvents head start ++ pieces.map Event.body)).reverse.dropWhile Event.isPiece =
      .headersComplete start :: ((headEvents head).reverse ++ .messageBegin :: before.reverse) := by
  have hreverse : (before ++ (openEvents head start ++ pieces.map Event.body)).reverse =
      (pieces.map Event.body).reverse ++
        .headersComplete start :: ((headEvents head).reverse ++ .messageBegin :: before.reverse) := by
    simp [openEvents]
  have hpieces : ∀ event ∈ (pieces.map Event.body).reverse, Event.isPiece event = true := by
    intro event hmem
    obtain ⟨piece, -, rfl⟩ := List.mem_map.mp (List.mem_reverse.mp hmem)
    rfl
  rw [hreverse]
  refine dropWhile_run hpieces fun event hevent => ?_
  cases hevent
  rfl

/-- **The report tells the framing of the message that is open.** -/
theorem ClosesWith.unique {limits : Limits} {head head' : Head} {start start' : Start}
    {framing framing' : Framing} {pieces pieces' : List Bytes} {events : List Event}
    (h : ClosesWith kind limits head start framing pieces events)
    (h' : ClosesWith kind limits head' start' framing' pieces' events) :
    start = start' ∧ framing = framing' := by
  obtain ⟨before, block, haccepted, rfl⟩ := h
  obtain ⟨before', block', haccepted', heq⟩ := h'
  have hhead : ∀ head : Head,
      ∀ event ∈ (headEvents head).reverse, (event != .messageBegin) = true := by
    intro head event hmem
    simpa using headEvents_ne_messageBegin head event (List.mem_reverse.mp hmem)
  have hends := congrArg (fun events => events.reverse.dropWhile Event.isPiece) heq
  simp only [dropWhile_reverse_open, List.cons.injEq, Event.headersComplete.injEq] at hends
  obtain ⟨rfl, hends⟩ := hends
  have hevents := congrArg (List.takeWhile (· != .messageBegin)) hends
  rw [takeWhile_run (hhead head) (by simp), takeWhile_run (hhead head') (by simp),
    List.reverse_inj] at hevents
  have hkind := (Head.kind_of_parse_done haccepted.parse).trans
    (Head.kind_of_parse_done haccepted'.parse).symm
  have hsound := haccepted.sound
  rw [fields_of_headEvents hkind hevents, haccepted'.sound] at hsound
  exact ⟨rfl, (Except.ok.inj hsound).symm⟩

theorem ClosesWith.head?_dropWhile {limits : Limits} {head : Head} {start : Start}
    {framing : Framing} {pieces : List Bytes} {events : List Event}
    (h : ClosesWith kind limits head start framing pieces events) :
    (events.reverse.dropWhile Event.isPiece).head? = some (.headersComplete start) := by
  obtain ⟨before, block, -, rfl⟩ := h
  rw [dropWhile_reverse_open]
  rfl

/-- Outside a message no head closes the report. -/
theorem ClosesMessage.not_closesWith {events : List Event} (h : ClosesMessage events)
    {limits : Limits} {head : Head} {start : Start} {framing : Framing} {pieces : List Bytes} :
    ¬ ClosesWith kind limits head start framing pieces events := by
  intro hcloses
  have hhead := hcloses.head?_dropWhile
  rcases h with rfl | ⟨before, start', rfl⟩
  · cases hhead
  · rw [List.reverse_concat, List.dropWhile_cons_of_neg (by simp [Event.isPiece])] at hhead
    cases hhead

/-- Whether the message that is open is a response on whose body its head says nothing: it switches
no protocols, does not exclude a body, and gives neither chunks nor a length. -/
def OpensUnframed (kind : Kind) (limits : Limits) (start : Start) (events : List Event) : Prop :=
  ∃ head pieces, ClosesWith kind limits head start .untilEnd pieces events ∧
    kind = .response ∧ ¬ Framing.LeavesProtocol kind start head.fields ∧
    ¬ Framing.ExcludesBody kind start ∧ ¬ Framing.EndsInChunked head.fields ∧
    ∀ n, ¬ Framing.GivesLength head.fields n

/-- **A body lasts until the input ends exactly in such a response.** -/
theorem LeavesOpen.opensUnframed_iff {r : Reader kind} {events : List Event}
    (h : r.LeavesOpen events) (hgoing : ∀ error, r.state ≠ .failed error) (start : Start) :
    OpensUnframed kind r.limits start events ↔ r.state = .body .untilEnd ∧ r.start = start := by
  constructor
  · rintro ⟨head, pieces, hcloses, -⟩
    cases hstate : r.state with
    | failed error => exact absurd hstate (hgoing error)
    | switched => exact absurd hcloses (h.closesMessage (.inr hstate)).not_closesWith
    | head buffer =>
      by_cases hbuffer : buffer = #[]
      · have hidle : r.state = .idle := by rw [hstate, hbuffer, State.idle]
        exact absurd hcloses (h.closesMessage (.inl hidle)).not_closesWith
      · rw [LeavesOpen, hstate] at h
        dsimp only at h
        rw [if_neg hbuffer] at h
        obtain ⟨before, rfl⟩ := h
        have hhead := hcloses.head?_dropWhile
        rw [List.reverse_concat, List.dropWhile_cons_of_neg (by simp [Event.isPiece])] at hhead
        cases hhead
    | body body =>
      rw [LeavesOpen, hstate] at h
      obtain ⟨head', pieces', hcloses'⟩ := h
      obtain ⟨hstart, hframing⟩ := hcloses'.unique hcloses
      refine ⟨?_, hstart⟩
      cases body with
      | untilEnd => rfl
      | _ => cases hframing
  · rintro ⟨hstate, rfl⟩
    rw [LeavesOpen, hstate] at h
    obtain ⟨head, pieces, hcloses⟩ := h
    have haccepted := hcloses
    obtain ⟨before, block, haccepted, -⟩ := haccepted
    exact ⟨head, pieces, hcloses, Framing.unframed_of_untilEnd haccepted.sound⟩

/-! ## What the end of the input says -/

/-- A message that is open is cut off, unless its body lasts until the input ends. -/
theorem finish_of_inMessage {r : Reader kind} (hinside : r.state.InMessage)
    (hends : r.state ≠ .body .untilEnd) : r.finish = r.fail [] .unexpectedEnd := by
  obtain ⟨limits, state, start⟩ := r
  cases state with
  | switched => exact hinside.elim
  | failed error => exact hinside.elim
  | head buffer =>
    have hne : buffer ≠ #[] := hinside
    have hbuffer : ¬ buffer.isEmpty = true := by simpa using hne
    simp only [finish, if_neg hbuffer]
  | body body =>
    cases body with
    | untilEnd => exact absurd rfl hends
    | _ => rfl

/-- **The end of the input** cuts a message off or is accepted. It is an event only if it completes
a body. -/
theorem finish_cases {r : Reader kind} (hgoing : ∀ error, r.state ≠ .failed error) :
    (r.state.InMessage ∧ r.state ≠ .body .untilEnd ∧ r.finish = r.fail [] .unexpectedEnd) ∨
      (r.finish.result = .ok 0 ∧ r.finish.reader.state.Rests ∧
        r.finish.events = if r.state = .body .untilEnd then [.messageComplete r.start] else []) := by
  by_cases hends : r.state = .body .untilEnd
  · right
    rw [if_pos hends]
    obtain ⟨limits, state, start⟩ := r
    subst hends
    exact ⟨rfl, .inl rfl, rfl⟩
  · rcases State.inMessage_or_rests hgoing with hinside | hrests
    · exact .inl ⟨hinside, hends, finish_of_inMessage hinside hends⟩
    · right
      rw [if_neg hends]
      obtain ⟨limits, state, start⟩ := r
      rcases hrests with rfl | rfl
      · exact ⟨rfl, .inl rfl, rfl⟩
      · exact ⟨rfl, .inr rfl, rfl⟩

/-- What the end of the input can report is the end of a body that lasts until then. -/
theorem events_feed_nil {r : Reader kind} (hgoing : ∀ error, r.state ≠ .failed error) :
    (r.feed []).events =
      if r.state = .body .untilEnd then [.messageComplete r.start] else [] := by
  rw [feed_nil]
  rcases finish_cases hgoing with ⟨-, hframed, hfinish⟩ | ⟨-, -, hfinish⟩
  · rw [hfinish, if_neg hframed]
    rfl
  · exact hfinish

/-- **The end of the input completes what has begun, or is an error** that reports nothing and
leaves one message open. -/
theorem Follows.feed_nil_cases {r : Reader kind} {events : List Event} (h : r.Follows events)
    (hsound : r.state.Sound r.limits) (hgoing : ∀ error, r.state ≠ .failed error) :
    let last := r.feed []
    let later := events ++ last.events
    (last.result = .ok 0 ∧ completed later = begun later) ∨
      (last.result = .error .unexpectedEnd ∧ last.events = [] ∧
        begun later = completed later + 1) := by
  intro last later
  have hlast : last = r.finish := feed_nil r
  rcases finish_cases hgoing with ⟨hinside, -, hfinish⟩ | ⟨hok, hrests, -⟩
  · right
    rw [hfinish] at hlast
    have hnothing : last.events = [] := by rw [hlast]; rfl
    refine ⟨by rw [hlast]; rfl, hnothing, ?_⟩
    have hsame : later = events := by
      show events ++ last.events = events
      rw [hnothing, List.append_nil]
    rw [hsame]
    exact h.begun_inMessage hinside
  · left
    rw [← hlast] at hok hrests
    exact ⟨hok, ((feed_follows hsound h []).begun_rests hrests).symm⟩

/-- A reader that has met the end of the input inside a message returns nothing else any more. -/
theorem feedAll_of_cutOff {r : Reader kind} (h : (r.feed []).result = .error .unexpectedEnd)
    (inputs : List Bytes) :
    ((r.feed []).reader.feedAll inputs).events = [] ∧
      ((r.feed []).reader.feedAll inputs).results = inputs.map fun _ => .error .unexpectedEnd := by
  have hfailed := feed_failsForGood r [] _ h
  rw [feedAll_of_stopped (feed_of_failed hfailed)]
  exact ⟨rfl, rfl⟩

/-! ## Messages that are cut off -/

/-- Whether a run ends inside a message that the end of the input cuts off, with none complete. -/
structure Progress.StaysOpen (p : Progress kind) : Prop where
  inside : p.reader.state.InMessage
  framed : p.reader.state ≠ .body .untilEnd
  ok : ∃ n, p.result = .ok n
  none : completed p.events = 0

namespace Progress.StaysOpen

variable {p q : Progress kind}

theorem of_agree (h : p.StaysOpen) (hagree : q.Agree p) : q.StaysOpen := by
  obtain ⟨hinside, hframed, hok, hcompleted⟩ := h
  rw [← hagree.reader] at hinside hframed
  rw [← hagree.result] at hok
  refine ⟨hinside, hframed, hok, ?_⟩
  rw [← Event.completed_joinBodies, hagree.events, Event.completed_joinBodies, hcompleted]

/-- Line breaks in front make no difference. -/
theorem behind (h : p.StaysOpen) (n : Nat) : (Progress.behind [] n p).StaysOpen := by
  obtain ⟨hinside, hframed, ⟨m, hok⟩, hcompleted⟩ := h
  exact ⟨hinside, hframed, ⟨n + m, by rw [Progress.behind, hok]; rfl⟩, hcompleted⟩

/-- Calls that come to such a run do not fail, and meet the end of the input inside a message. -/
theorem of_calls (h : p.StaysOpen) {calls : Calls kind} (hcome : calls.ComeTo p) :
    (∀ error, .error error ∉ calls.results) ∧ completed calls.events = 0 ∧
      calls.reader.feed [] = calls.reader.fail [] .unexpectedEnd := by
  obtain ⟨hinside, hframed, ⟨n, hok⟩, hcompleted⟩ := h
  rw [← hcome.reader] at hinside hframed
  refine ⟨fun error herror => ?_, ?_, finish_of_inMessage hinside hframed⟩
  · rw [← hcome.results.error_iff, hok] at herror
    cases herror
  · rw [← Event.completed_joinBodies, hcome.events, Event.completed_joinBodies, hcompleted]

end Progress.StaysOpen

section
variable {r : Reader kind} (hidle : r.state = .idle)
include hidle

/-- The beginning of a head is buffered. -/
theorem consume_headPart {part more : Bytes} {head : Head}
    (hparse : Head.parse kind r.limits.maxFields (part ++ more) = .done head [])
    (hfits : (part ++ more).length ≤ r.limits.maxHeadLength) (hpart : part ≠ []) (hmore : more ≠ []) :
    r.consume part =
      ⟨[.messageBegin], { r with state := .head part.toArray }, .ok part.length⟩ := by
  obtain ⟨limits, state, start⟩ := r
  subst hidle
  obtain ⟨b, rest, rfl⟩ := List.exists_cons_of_ne_nil hpart
  have hroom : (b :: rest).length < limits.maxHeadLength := by
    have hpos := List.length_pos_iff.mpr hmore
    rw [List.length_append] at hfits
    dsimp only at hfits
    omega
  have hending : Head.hasEnding ((#[] : Array UInt8).toList ++ b :: rest) = false :=
    Head.hasEnding_of_part hparse hmore
  have htaken : (b :: rest).take (limits.maxHeadLength - (#[] : Array UInt8).size) = b :: rest :=
    List.take_of_length_le (Nat.le_of_lt hroom)
  have hbuffer : (#[] : Array UInt8) ++ (b :: rest) = (b :: rest).toArray := by
    apply Array.ext'
    simp
  have hstep : step (⟨limits, .idle, start⟩ : Reader kind) (b :: rest) =
      moveTo { limits, start } [.messageBegin] (.head (b :: rest).toArray) (b :: rest).length := by
    rw [step_idle_of_not_break (Head.isBreak_of_parse_done hparse),
      readHead_of_not_ending rfl htaken hpart hending, hbuffer, awaitHead, if_neg (by simpa using hroom)]
  rw [consume_of_moveTo hstep (Nat.succ_pos _) hpart, List.drop_length, consume_nil]
  rfl

end

section
variable {limits : Limits} {block body : Bytes} {head : Head} {start : Start} {framing : Framing}

theorem Accepted.completed_openEvents (h : Accepted kind limits block head start framing) :
    completed (openEvents head start) = 0 :=
  (openMessage_of_head (Head.kind_of_parse_done h.parse) start).balance.2

theorem completed_bodyEvents (body : Bytes) : completed (bodyEvents body) = 0 := by
  rw [bodyEvents]
  split <;> rfl

/-- Whether a head with this framing is followed by a whole body: one of the length that it gives,
or a chunked one. -/
def FramesBody (framing : Framing) (body : Bytes) : Prop :=
  framing = .length body.length ∨
    framing = .chunked ∧ ∃ payload, Chunked.ChunkedBody body payload

/-- No chunked body begins with another one. -/
theorem eq_nil_of_chunkedBody {front behind payload payload' : Bytes}
    (hfront : Chunked.ChunkedBody front payload)
    (hbody : Chunked.ChunkedBody (front ++ behind) payload') : behind = [] := by
  have hends := (Chunked.Decoder.decode_chunkedBody hfront behind).1
  have hends' := (Chunked.Decoder.decode_chunkedBody hbody []).1
  rw [List.append_nil, hends] at hends'
  exact Chunked.Outcome.finished.inj hends'

/-- **The beginning of a body leaves its message open.** -/
theorem staysOpen_of_bodyPart {r : Reader kind} (hidle : r.state = .idle)
    (h : Accepted kind r.limits block head start framing) {part more : Bytes}
    (hbody : FramesBody framing (part ++ more)) (hmore : more ≠ []) :
    (r.consume (block ++ part)).StaysOpen := by
  have hnone : ∀ payload, completed (openEvents head start ++ bodyEvents payload) = 0 := by
    intro payload
    rw [Event.completed_append, h.completed_openEvents, completed_bodyEvents]
  rcases hbody with hframing | ⟨hframing, payload, hchunks⟩
  · have hless : part.length < (part ++ more).length := by
      have hpos := List.length_pos_iff.mpr hmore
      rw [List.length_append]
      omega
    rw [consume_sizedPart hidle h hframing hless]
    exact ⟨trivial, by rintro ⟨⟩, ⟨_, rfl⟩, hnone part⟩
  · -- A chunked body in what has come would be followed by nothing.
    have hpart : ∀ front rest payload, part = front ++ rest →
        ¬ Chunked.ChunkedBody front payload := by
      rintro front rest payload' rfl hfront
      rw [List.append_assoc] at hchunks
      exact hmore (List.append_eq_nil_iff.mp (eq_nil_of_chunkedBody hfront hchunks)).2
    obtain ⟨decoder, hagree⟩ | ⟨-, hbroken⟩ := consume_chunkedPart hidle h hframing hpart
    · refine Progress.StaysOpen.of_agree ?_ hagree
      exact ⟨trivial, by rintro ⟨⟩, ⟨_, rfl⟩, hnone _⟩
    · exact absurd (List.prefix_append part more) (hbroken _ payload hchunks)

/-- **The beginning of a message leaves it open.** -/
theorem staysOpen_of_part {r : Reader kind} (hidle : r.state = .idle)
    (h : Accepted kind r.limits block head start framing) (hbody : FramesBody framing body)
    {part more : Bytes} (hpart : part ≠ []) (hmore : more ≠ [])
    (hmessage : part ++ more = block ++ body) : (r.consume part).StaysOpen := by
  rcases List.append_eq_append_iff.mp hmessage with ⟨left, hblock, hrest⟩ | ⟨front, hfront, hrest⟩
  · by_cases hleft : left = []
    · -- The head is there, and nothing of the body.
      subst hleft
      have hwhole : part = block ++ [] := by simpa using hblock.symm
      have hnothing : FramesBody framing ([] ++ more) := by simpa [hrest] using hbody
      rw [hwhole]
      exact staysOpen_of_bodyPart hidle h hnothing hmore
    · have hparse := h.parse
      have hfits := h.fits
      rw [hblock] at hparse hfits
      rw [consume_headPart hidle hparse hfits hpart hleft]
      refine ⟨?_, by rintro ⟨⟩, ⟨_, rfl⟩, rfl⟩
      show part.toArray ≠ #[]
      simpa using hpart
  · rw [hfront]
    exact staysOpen_of_bodyPart hidle h (hrest ▸ hbody) hmore

end

/-! ## The end of the input -/

/-- **The end of the input hides no message that is cut off.** After calls to a new reader of which
none has failed, it is accepted exactly if every message that has begun is complete by then. If not,
it is an error, nothing is reported, and every later call returns that error. What it can report is
the end of one response, whose head gives neither a length nor chunks nor excludes a body. So if
something is missing of a message with a length or with chunks, in whichever pieces the rest has
come and whatever line breaks were in front of it, no message is complete and the end of the input
is an error. -/
theorem endOfInput_tells_cutOff (kind : Kind) (limits : Limits) :
    (∀ inputs, (∀ error, .error error ∉ (({ limits } : Reader kind).feedAll inputs).results) →
      let calls := ({ limits } : Reader kind).feedAll inputs
      let last := calls.reader.feed []
      let events := calls.events ++ last.events
      (last.result = .ok 0 ↔ completed events = begun events) ∧
        (completed events ≠ begun events →
          last.result = .error .unexpectedEnd ∧ last.events = [] ∧
            ∀ later, (last.reader.feedAll later).events = [] ∧
              (last.reader.feedAll later).results = later.map fun _ => .error .unexpectedEnd) ∧
        (last.events = [] ∨ ∃ start, last.events = [.messageComplete start]) ∧
        ∀ start, last.events = [.messageComplete start] ↔
          OpensUnframed kind limits start calls.events) ∧
    (∀ block body head start framing, Accepted kind limits block head start framing →
      FramesBody framing body → ∀ breaks part more, (∀ b ∈ breaks, Byte.isBreak b = true) →
        part ≠ [] → more ≠ [] → part ++ more = block ++ body →
        ∀ pieces : List Bytes, (∀ piece ∈ pieces, piece ≠ []) → pieces.flatten = breaks ++ part →
          let calls := ({ limits } : Reader kind).feedAll pieces
          let last := calls.reader.feed []
          (∀ error, .error error ∉ calls.results) ∧
            completed (calls.events ++ last.events) = 0 ∧ last.result = .error .unexpectedEnd) := by
  constructor
  · intro inputs hok calls last events
    have hgoing : ∀ error, calls.reader.state ≠ .failed error :=
      feedAll_ne_failed (r := { limits }) (by simp [State.idle]) hok
    have hfollows : calls.reader.Follows calls.events := feedAll_follows rfl inputs
    have hsound : calls.reader.state.Sound calls.reader.limits :=
      feedAll_sound (State.sound_idle limits) inputs
    have hopen : calls.reader.LeavesOpen calls.events := feedAll_leavesOpen rfl inputs
    have hlimits : calls.reader.limits = limits := limits_feedAll _ _
    have hevents : last.events = if calls.reader.state = .body .untilEnd then
        [.messageComplete calls.reader.start] else [] := events_feed_nil hgoing
    have hreports : last.events = [] ∨ ∃ start, last.events = [.messageComplete start] := by
      rw [hevents]
      split
      · exact .inr ⟨_, rfl⟩
      · exact .inl rfl
    have hunframed : ∀ start, last.events = [.messageComplete start] ↔
        OpensUnframed kind limits start calls.events := by
      intro start
      rw [hevents, ← hlimits, hopen.opensUnframed_iff hgoing]
      split
      · next hstate => simp [hstate]
      · next hstate => simp [hstate]
    rcases hfollows.feed_nil_cases hsound hgoing with ⟨hok, hbalanced⟩ | ⟨hresult, hnone, hmore⟩
    · exact ⟨⟨fun _ => hbalanced, fun _ => hok⟩, fun hne => absurd hbalanced hne, hreports,
        hunframed⟩
    · refine ⟨⟨fun hok => ?_, fun hbalanced => ?_⟩,
        fun _ => ⟨hresult, hnone, feedAll_of_cutOff hresult⟩, hreports, hunframed⟩
      · rw [hresult] at hok
        cases hok
      · have hopened : begun events = completed events + 1 := hmore
        omega
  · intro block body head start framing haccepted hbody breaks part more hbreaks hpart hmore
      hmessage pieces hne hpieces calls last
    have hopen : (({ limits } : Reader kind).consume pieces.flatten).StaysOpen := by
      rw [hpieces, consume_breaks rfl hbreaks]
      exact (staysOpen_of_part rfl haccepted hbody hpart hmore hmessage).behind _
    obtain ⟨hresults, hnone, hlast⟩ := hopen.of_calls (feedAll_flatten (State.sound_idle limits) hne)
    have hcut : last = calls.reader.fail [] .unexpectedEnd := hlast
    rw [hcut, Event.completed_append]
    exact ⟨hresults, by rw [hnone]; rfl, rfl⟩

/-- The head of a response with a body of three bytes. -/
def sizedHead : Bytes := Utf8.encode "HTTP/1.1 200 OK\r\nContent-Length: 3\r\n\r\n"

/-- A line break, that head cut inside its empty line, and two bytes of the body. -/
def sizedPieces : List Bytes :=
  [Utf8.encode "\r\n" ++ sizedHead.take 37, sizedHead.drop 37 ++ Utf8.encode "a", Utf8.encode "b"]

theorem sizedPieces_cut_off :
    let calls := ({} : Reader .response).feedAll sizedPieces
    let last := calls.reader.feed []
    ∃ head start,
      (Accepted .response {} sizedHead head start (.length 3) ∧
        FramesBody (.length 3) (Utf8.encode "abc") ∧ (∀ piece ∈ sizedPieces, piece ≠ []) ∧
        sizedPieces.flatten = Utf8.encode "\r\n" ++ (sizedHead ++ Utf8.encode "ab") ∧
        ∀ error, .error error ∉ calls.results) ∧
      last.result = .error .unexpectedEnd ∧ completed (calls.events ++ last.events) = 0 ∧
      completed (calls.events ++ last.events) ≠ begun (calls.events ++ last.events) := by
  intro calls last
  have haccepted : Accepted .response {} sizedHead
      ⟨.status 1 200 (Utf8.encode "OK"), [⟨Utf8.encode "Content-Length", Utf8.encode "3"⟩]⟩
      { status := 200, version := 1 } (.length 3) :=
    ⟨by decide +kernel, by decide +kernel, by decide, by decide +kernel⟩
  have hbody : FramesBody (.length 3) (Utf8.encode "abc") := .inl (by decide +kernel)
  have hne : ∀ piece ∈ sizedPieces, piece ≠ [] := by decide +kernel
  have hpieces : sizedPieces.flatten = Utf8.encode "\r\n" ++ (sizedHead ++ Utf8.encode "ab") := by
    decide +kernel
  obtain ⟨hall, hcut⟩ := endOfInput_tells_cutOff .response {}
  obtain ⟨hok, hnone, hlast⟩ := hcut sizedHead (Utf8.encode "abc") _ _ _ haccepted hbody
    (Utf8.encode "\r\n") (sizedHead ++ Utf8.encode "ab") (Utf8.encode "c")
    (List.all_eq_true.mp (by decide)) (by decide +kernel) (by decide) (by decide +kernel)
    sizedPieces hne hpieces
  refine ⟨_, _, ⟨haccepted, hbody, hne, hpieces, hok⟩, hlast, hnone, fun hbalanced => ?_⟩
  have haccept := (hall sizedPieces hok).1.mpr hbalanced
  rw [show (calls.reader.feed []).result = .error .unexpectedEnd from hlast] at haccept
  cases haccept

end Reader

end HttpWire
