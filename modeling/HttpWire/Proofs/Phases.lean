import HttpWire.Proofs.Leftover
import HttpWire.Proofs.Message
import HttpWire.Proofs.Reader.EndOfInput
/-!
# Phases

Two things keep account of where a stream is: the reader, by its state, and the message that it
fills, by its phase. The state changes with the bytes and the phase with the events, and the two
never drift apart. So the answer to a call tells of the stream what the state of the reader does.
-/

namespace HttpWire

theorem Phase.receipt_of_ne {phase : Phase} (h : phase ≠ .complete) :
    phase.receipt = .incomplete := by
  cases phase with
  | complete => exact absurd rfl h
  | _ => rfl

namespace Reader

open Event (begun completed)

variable {kind : Kind}

/-! ## Phases and states -/

/-- A message that has begun never comes to be awaited again. -/
theorem begun_of_awaiting {m : Message} {events : List Event}
    (h : (events.foldl Message.receive m).phase = .awaitingMessage) :
    m.phase = .awaitingMessage ∧ begun events = 0 := by
  induction events generalizing m with
  | nil => exact ⟨h, rfl⟩
  | cons event events ih =>
    obtain ⟨hphase, hnone⟩ := ih h
    have hcount : begun (event :: events) = begun events + begun [event] :=
      (Event.begun_append [event] events).trans (Nat.add_comm ..)
    cases event with
    | messageBegin => cases hphase
    | headersComplete start => cases hphase
    | messageComplete start => cases hphase
    | _ => exact ⟨hphase, by rw [hcount, hnone]; rfl⟩

/-- Whether the phase of a message, the state of the reader that fills it and what that has reported
since it was new agree on where the stream is. -/
structure InStep (phase : Phase) (r : Reader kind) (events : List Event) : Prop where
  awaiting : phase = .awaitingMessage ↔ begun events = 0
  inHeaders : phase = .inHeaders ↔ ∃ buffer, buffer ≠ #[] ∧ r.state = .head buffer
  inBody : phase = .inBody ↔ ∃ body, r.state = .body body
  complete : phase = .complete ↔ 0 < begun events ∧ r.state.Rests

theorem State.Shows.inStep {r : Reader kind} {phase : Phase} (h : r.state.Shows phase)
    (hgoing : ∀ error, r.state ≠ .failed error) {events : List Event}
    (hawaiting : phase = .awaitingMessage ↔ begun events = 0) : InStep phase r events := by
  have hbegun : 0 < begun events ↔ phase ≠ .awaitingMessage := by
    rw [ne_eq, hawaiting, Nat.pos_iff_ne_zero]
  cases hstate : r.state with
  | failed error => exact absurd hstate (hgoing error)
  | switched =>
    rw [hstate] at h
    obtain rfl : phase = .complete := h
    constructor <;> simp_all [State.Rests]
  | body body =>
    rw [hstate] at h
    obtain rfl : phase = .inBody := h
    constructor <;> simp_all [State.Rests, State.idle]
  | head buffer =>
    rw [hstate, State.Shows] at h
    by_cases hbuffer : buffer = #[]
    · rw [if_pos hbuffer] at h
      rcases h with rfl | rfl
      · constructor <;> simp_all [State.Rests, State.idle]
      · constructor <;> simp_all [State.Rests, State.idle]
    · rw [if_neg hbuffer] at h
      subst h
      constructor <;> simp_all [State.Rests, State.idle]

theorem feedAll_shows {r : Reader kind} {m : Message} (hm : r.state.Shows m.phase)
    (inputs : List Bytes) :
    (r.feedAll inputs).reader.state.Shows
      ((r.feedAll inputs).events.foldl Message.receive m).phase := by
  refine feedAll_keeps
    (fun s events => s.state.Shows (events.foldl Message.receive m).phase)
    (fun s events input _ hs => ?_) (fun s events hs => ?_) [] hm inputs
  · rw [List.foldl_append]
    exact (step_stepTo s input).shows hs
  · rw [List.foldl_append]
    exact (finish_finishTo s).shows hs

theorem feedAll_going {r : Reader kind} (hidle : r.state = .idle) {inputs : List Bytes}
    (hok : ∀ error, .error error ∉ (r.feedAll inputs).results) :
    ∀ error, (r.feedAll inputs).reader.state ≠ .failed error := by
  refine feedAll_ne_failed (fun error => ?_) hok
  rw [hidle]
  rintro ⟨⟩

/-- **The message keeps in step with the reader** over all calls that do not fail. -/
theorem feedAll_inStep {r : Reader kind} {m : Message} (hidle : r.state = .idle)
    (hm : m.phase = .awaitingMessage) {inputs : List Bytes}
    (hok : ∀ error, .error error ∉ (r.feedAll inputs).results) :
    InStep ((r.feedAll inputs).events.foldl Message.receive m).phase (r.feedAll inputs).reader
      (r.feedAll inputs).events := by
  have hshows : r.state.Shows m.phase := by
    rw [hidle]
    exact .inl hm
  have hgoing := feedAll_going hidle hok
  refine (feedAll_shows hshows inputs).inStep hgoing ⟨fun h => (begun_of_awaiting h).2, fun h => ?_⟩
  -- As nothing has begun, nothing has been reported.
  rw [((feedAll_follows hidle inputs).begun_eq_zero_iff hgoing).mp h]
  exact hm

/-- One more call that does not fail makes a message complete exactly when it leaves none open. -/
theorem feed_complete_iff {r : Reader kind} {m : Message} (hidle : r.state = .idle)
    (hm : m.phase = .awaitingMessage) {inputs : List Bytes}
    (hok : ∀ error, .error error ∉ (r.feedAll inputs).results) {input : Bytes} {n : Nat}
    (hlast : ((r.feedAll inputs).reader.feed input).result = .ok n) :
    let events := (r.feedAll inputs).events ++ ((r.feedAll inputs).reader.feed input).events
    (events.foldl Message.receive m).phase = .complete ↔
      0 < begun events ∧ completed events = begun events := by
  intro events
  have hcalls : r.feedAll (inputs ++ [input]) =
      ⟨events, ((r.feedAll inputs).reader.feed input).reader,
        (r.feedAll inputs).results ++ [.ok n]⟩ := by
    rw [feedAll_append, ← hlast]
    simp only [feedAll, List.append_nil]
    rfl
  have hnone : ∀ error, .error error ∉ (r.feedAll (inputs ++ [input])).results := by
    intro error hmem
    rw [hcalls] at hmem
    rcases List.mem_append.mp hmem with hbefore | hnow
    · exact hok error hbefore
    · rw [List.mem_singleton] at hnow
      cases hnow
  have hstep := (feedAll_inStep hidle hm hnone).complete
  rw [← (feedAll_follows hidle _).balanced_iff (feedAll_going hidle hnone)] at hstep
  rwa [hcalls] at hstep

/-! ## Answers -/

/-- The states in which the end of the input cuts a message off. -/
theorem State.cutOff_iff {state : State} :
    state.InMessage ∧ state ≠ .body .untilEnd ↔
      (∃ buffer, buffer ≠ #[] ∧ state = .head buffer) ∨
        (∃ n, state = .body (.length n)) ∨ ∃ decoder, state = .body (.chunked decoder) := by
  cases state with
  | head buffer => simp [State.InMessage]
  | body body => cases body <;> simp [State.InMessage]
  | switched => simp [State.InMessage]
  | failed error => simp [State.InMessage]

/-- Whether a message in this phase, the reader that fills it and what that has reported since it
was new agree, and what is answered to the next input goes by them: that a message is complete if
one has begun and none is left open, and that the input ended too early if it ends inside a head or
inside a body whose end is marked. -/
structure Agree (phase : Phase) (r : Reader kind) (events : List Event)
    (answer : Bytes → Except Error Receipt) : Prop extends InStep phase r events where
  receipt : ∀ input, (r.feed input).result = .ok input.length →
    answer input = .ok
      (if 0 < begun (events ++ (r.feed input).events) ∧
          completed (events ++ (r.feed input).events) = begun (events ++ (r.feed input).events)
        then .complete else .incomplete)
  cutOff : answer [] = .error .unexpectedEnd ↔
    phase = .inHeaders ∨ phase = .inBody ∧
      ((∃ n, r.state = .body (.length n)) ∨ ∃ decoder, r.state = .body (.chunked decoder))

/-- The answer to a call is what the message and the reader come to with it. -/
theorem feedAll_agree {r : Reader kind} {m : Message} (hidle : r.state = .idle)
    (hm : m.phase = .awaitingMessage) {inputs : List Bytes}
    (hok : ∀ error, .error error ∉ (r.feedAll inputs).results) :
    let calls := r.feedAll inputs
    let received := calls.events.foldl Message.receive m
    Agree received.phase calls.reader calls.events fun input =>
      let last := calls.reader.feed input
      (last.events.foldl Message.receive received).answer last.result input.length := by
  intro calls received
  have hgoing : ∀ error, calls.reader.state ≠ .failed error := feedAll_going hidle hok
  have hstep : InStep received.phase calls.reader calls.events := feedAll_inStep hidle hm hok
  refine { hstep with receipt := fun input hwhole => ?_, cutOff := ?_ }
  · dsimp only
    rw [hwhole, Message.answer_of_whole, ← List.foldl_append]
    have hcomplete := feed_complete_iff hidle hm hok hwhole
    split
    · next hover =>
      rw [hcomplete.mpr hover]
      rfl
    · next hopen =>
      rw [Phase.receipt_of_ne (mt hcomplete.mp hopen)]
  · have hphase : (received.phase = .inHeaders ∨ received.phase = .inBody ∧
        ((∃ n, calls.reader.state = .body (.length n)) ∨
          ∃ decoder, calls.reader.state = .body (.chunked decoder))) ↔
        calls.reader.state.InMessage ∧ calls.reader.state ≠ .body .untilEnd := by
      rw [hstep.inHeaders, hstep.inBody, State.cutOff_iff]
      refine or_congr_right ⟨fun h => h.2, fun h => ⟨?_, h⟩⟩
      rcases h with ⟨n, hstate⟩ | ⟨decoder, hstate⟩
      · exact ⟨_, hstate⟩
      · exact ⟨_, hstate⟩
    rw [hphase]
    dsimp only
    rw [feed_nil]
    rcases finish_cases hgoing with ⟨hinside, hmarked, hfinish⟩ | ⟨hresult, hrests, -⟩
    · rw [hfinish]
      exact ⟨fun _ => ⟨hinside, hmarked⟩, fun _ => rfl⟩
    · rw [hresult, List.length_nil, Message.answer_of_whole]
      refine ⟨?_, fun ⟨hinside, hmarked⟩ => ?_⟩
      · rintro ⟨⟩
      · rw [finish_of_inMessage hinside hmarked] at hresult
        cases hresult

/-- When nothing but bytes that were left over kept calls from an answer, none of them failed. -/
theorem results_of_unconsumed {r : Reader kind} (hnew : r = r.reset) {inputs : List Bytes}
    (hleft : ∀ error, .error error ∈ (r.feedAll inputs).results →
      ∃ c s, error = .unconsumed c s) :
    ∀ error, .error error ∉ (r.feedAll inputs).results := by
  intro error hmem
  obtain ⟨c, s, rfl⟩ := hleft error hmem
  have hreach : (r.feedAll inputs).reader.Reachable := by
    rw [hnew]
    exact (Reachable.new r.limits).feedAll inputs
  exact (hreach.findsError _ (feedAll_failsForGood hmem)).elim

end Reader

/-- What is filled by a new reader agrees with it over all calls that find no error. -/
theorem Receiver.agree {kind : Kind} {σ : Type} (R : Receiver kind σ) {s : σ}
    (hm : (R.message s).phase = .awaitingMessage) (hnew : R.reader s = (R.reader s).reset)
    {inputs : List Bytes}
    (hleft : ∀ error, .error error ∈ (R.parseAll s inputs).2 →
      ∃ consumed supplied, error = .unconsumed consumed supplied) :
    let received := (R.parseAll s inputs).1
    Reader.Agree (R.message received).phase (R.reader received)
      ((R.reader s).feedAll inputs).events fun input => (R.parse received input).2 := by
  intro received
  have hidle : (R.reader s).state = .idle := by
    rw [hnew]
    rfl
  have hok := Reader.results_of_unconsumed hnew fun error hmem =>
    hleft error (R.error_mem_parseAll hmem)
  have hagree := Reader.feedAll_agree hidle hm hok
  dsimp only [received]
  simp only [R.snd_parse, R.message_parseAll, R.reader_parseAll]
  exact hagree

/-- **The phase of a message and the state of its reader never drift apart.** For every request and
every response whose reader is new, and all calls, those that tell the end of the input among them,
of which none found an error in the stream: the phase says whether a message has begun, and whether
the reader is in a head, in a body, or at rest behind a message. A call that consumes all that it is
given answers that a message is complete exactly when one has begun and each that has begun has
ended, and the end of the input comes too early exactly inside a head and inside a body whose end is
marked. -/
theorem phase_agrees_with_reader :
    (∀ (r : Request) (inputs : List Bytes), r.message.phase = .awaitingMessage →
      r.reader = r.reader.reset →
      (∀ error, .error error ∈ (r.parseAll inputs).2 → ∃ c s, error = .unconsumed c s) →
      let received := (r.parseAll inputs).1
      Reader.Agree received.message.phase received.reader (r.reader.feedAll inputs).events
        fun input => (received.parse input).2) ∧
    (∀ (r : Response) (inputs : List Bytes), r.message.phase = .awaitingMessage →
      r.reader = r.reader.reset →
      (∀ error, .error error ∈ (r.parseAll inputs).2 → ∃ c s, error = .unconsumed c s) →
      let received := (r.parseAll inputs).1
      Reader.Agree received.message.phase received.reader (r.reader.feedAll inputs).events
        fun input => (received.parse input).2) := by
  exact ⟨fun r inputs hm hnew hleft => Request.receiver.agree hm hnew hleft,
    fun r inputs hm hnew hleft => Response.receiver.agree hm hnew hleft⟩

/-- A request in two pieces, the second of which is cut off inside its body. -/
def cutPost : List Bytes :=
  [Utf8.encode "\r\nPOST / HTTP/1.1\r\nContent-Le", Utf8.encode "ngth: 2\r\n\r\na"]

/-- A response that switches protocols, and a byte behind it. -/
def switchedPieces : List Bytes :=
  [Utf8.encode "HTTP/1.1 101 \r\nConnection: upgrade\r\nUpgrade: a\r\n", Utf8.encode "\r\nx"]

theorem phase_of_cutPost :
    let r : Request := {}
    let s : Response := {}
    let cut := (r.parseAll cutPost).1
    let switched := (s.parseAll switchedPieces).1
    (r.parseAll cutPost).2 = [.ok .incomplete, .ok .incomplete] ∧
      (s.parseAll switchedPieces).2 = [.ok .incomplete, .error (.unconsumed 2 3)] ∧
      Reader.Agree cut.message.phase cut.reader (r.reader.feedAll cutPost).events
        (fun input => (cut.parse input).2) ∧
      Reader.Agree switched.message.phase switched.reader (s.reader.feedAll switchedPieces).events
        (fun input => (switched.parse input).2) := by
  intro r s cut switched
  have hcut : (r.parseAll cutPost).2 = [.ok .incomplete, .ok .incomplete] := by decide +kernel
  have hswitched : (s.parseAll switchedPieces).2 =
      [.ok .incomplete, .error (.unconsumed 2 3)] := by decide +kernel
  refine ⟨hcut, hswitched, phase_agrees_with_reader.1 r cutPost rfl rfl fun error hmem => ?_,
    phase_agrees_with_reader.2 s switchedPieces rfl rfl fun error hmem => ?_⟩
  · rw [hcut] at hmem
    simp at hmem
  · rw [hswitched] at hmem
    simp only [List.mem_cons, List.not_mem_nil, or_false] at hmem
    rcases hmem with hfirst | hlast
    · cases hfirst
    · injection hlast with hlast
      exact ⟨2, 3, hlast⟩

end HttpWire
