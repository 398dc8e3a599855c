import HttpWire.Message
import HttpWire.Proofs.Reader.Balance
/-!
# Messages as they come

The phase of a message follows the state of the reader that reports it. So a receipt says where
the reader is: after a complete message it is between messages, or has stopped at a switch of
protocols.
-/

namespace HttpWire

/-- The answer that a message is complete is given only when it is, and to no failed call. -/
theorem Message.complete_of_answer {m : Message} {result : Except Error Nat} {supplied : Nat}
    (h : m.answer result supplied = .ok .complete) :
    m.phase = .complete ∧ ∃ n, result = .ok n := by
  cases result with
  | error error => cases h
  | ok n =>
    refine ⟨?_, n, rfl⟩
    unfold answer Except.bind at h
    dsimp only at h
    split at h
    · cases h
    · cases hphase : m.phase with
      | complete => rfl
      | _ =>
        rw [hphase] at h
        cases h

/-- A call that is answered with a receipt has consumed everything. -/
theorem Message.whole_of_answer {m : Message} {result : Except Error Nat} {supplied : Nat}
    {receipt : Receipt} (h : m.answer result supplied = .ok receipt) :
    ∃ n, result = .ok n ∧ supplied ≤ n := by
  cases result with
  | error error => cases h
  | ok n =>
    refine ⟨n, rfl, ?_⟩
    unfold answer Except.bind at h
    dsimp only at h
    split at h
    · cases h
    · omega

namespace Reader

variable {kind : Kind}

/-- The phases that go with a state. After an error the message stays as it was. -/
def State.Shows : State → Phase → Prop
  | .head buffer, phase =>
    if buffer = #[] then phase = .awaitingMessage ∨ phase = .complete else phase = .inHeaders
  | .body _, phase => phase = .inBody
  | .switched, phase => phase = .complete
  | .failed _, _ => True

theorem phase_foldl_pieces (m : Message) (pieces : List Bytes) :
    ((pieces.map Event.body).foldl Message.receive m).phase = m.phase := by
  induction pieces generalizing m with
  | nil => rfl
  | cons piece pieces ih => exact ih (m.receive (.body piece))

theorem phase_foldl_opening {r : Reader kind} {m : Message} {buffer : Array UInt8}
    (hstate : r.state = .head buffer) (hm : r.state.Shows m.phase) :
    (r.opening.foldl Message.receive m).phase = .inHeaders := by
  rw [hstate, State.Shows] at hm
  unfold opening
  by_cases hbuffer : buffer = #[]
  · rw [if_pos (by rw [hstate, hbuffer]; rfl)]
    rfl
  · rw [if_neg hbuffer] at hm
    have hbusy : r.state ≠ .idle := by
      rw [hstate]
      intro hidle
      injection hidle with hnil
      exact hbuffer hnil
    rw [if_neg hbusy]
    exact hm

/-- The message after a head is in its body, or complete if it has none. -/
theorem shows_afterHead (framing : Framing) (start : Start) (m : Message) :
    (State.afterHead framing).Shows
      ((Event.headersComplete start ::
        if (State.afterHead framing).inBody then [] else [.messageComplete start]).foldl
          Message.receive m).phase := by
  cases framing with
  | protocolSwitch => rfl
  | chunked => rfl
  | untilEnd => rfl
  | length n =>
    cases n with
    | zero => exact .inr rfl
    | succ n => rfl

theorem StepTo.shows {r : Reader kind} {input : Bytes} {p : Progress kind}
    (h : r.StepTo input p) {m : Message} (hm : r.state.Shows m.phase) :
    p.reader.state.Shows (p.events.foldl Message.receive m).phase := by
  cases h with
  | failed error hevents => trivial
  | skipped n hstate =>
    rw [hstate] at hm
    exact hm
  | waited buffer n hstate hbuffer hsound =>
    show (State.head buffer).Shows (r.opening.foldl Message.receive m).phase
    rw [State.Shows, if_neg hbuffer]
    exact phase_foldl_opening hstate hm
  | opened head start framing n hstate =>
    unfold moveTo
    rw [List.foldl_append]
    exact shows_afterHead framing start _
  | read pieces body n hstate hsound =>
    rw [hstate] at hm
    exact (phase_foldl_pieces m pieces).trans hm
  | completed pieces n hstate =>
    unfold complete moveTo
    rw [List.foldl_append]
    exact .inr rfl
  | stopped hstate =>
    rw [hstate] at hm
    exact hm

theorem consume_shows {r : Reader kind} {m : Message} (hm : r.state.Shows m.phase)
    (input : Bytes) :
    (r.consume input).reader.state.Shows
      ((r.consume input).events.foldl Message.receive m).phase := by
  refine consume_keeps_reported
    (fun s events => s.state.Shows (events.foldl Message.receive m).phase)
    (fun s events input _ hs => ?_) [] hm input
  rw [List.foldl_append]
  exact (step_stepTo s input).shows hs

theorem FinishTo.shows {r : Reader kind} {p : Progress kind} (h : r.FinishTo p) {m : Message}
    (hm : r.state.Shows m.phase) :
    p.reader.state.Shows (p.events.foldl Message.receive m).phase := by
  cases h with
  | between hstate =>
    rw [hstate] at hm
    exact hm
  | completed hstate => exact .inr rfl
  | cutOff hinside => trivial
  | stopped hstate =>
    rw [hstate] at hm
    exact hm
  | failed error hstate => trivial

/-- **The phase of a message follows the reader.** -/
theorem feed_shows {r : Reader kind} {m : Message} (hm : r.state.Shows m.phase) (input : Bytes) :
    (r.feed input).reader.state.Shows ((r.feed input).events.foldl Message.receive m).phase := by
  by_cases hempty : input = []
  · rw [hempty, feed_nil]
    exact (finish_finishTo r).shows hm
  · rw [feed_of_ne_nil hempty]
    exact consume_shows hm input

/-- A complete message goes with a reader that rests, or has failed. -/
theorem State.Shows.rests {state : State} (h : state.Shows .complete)
    (hgoing : ∀ error, state ≠ .failed error) : state.Rests := by
  cases state with
  | failed error => exact absurd rfl (hgoing error)
  | switched => exact .inr rfl
  | body body => cases h
  | head buffer =>
    by_cases hbuffer : buffer = #[]
    · exact .inl (by rw [hbuffer, State.idle])
    · rw [State.Shows, if_neg hbuffer] at h
      cases h

/-- A reader that has completed a message without failing is between messages, unless it has
stopped at a switch of protocols. -/
theorem feed_idle {r : Reader kind} {m : Message} {input : Bytes} {n : Nat}
    (hidle : r.state = .idle) (hm : r.state.Shows m.phase) (hok : (r.feed input).result = .ok n)
    (hcomplete : ((r.feed input).events.foldl Message.receive m).phase = .complete)
    (hswitched : (r.feed input).reader.isSwitched = false) :
    (r.feed input).reader.state = .idle ∧ (r.feed input).reader.limits = r.limits := by
  by_cases hempty : input = []
  · obtain ⟨limits, state, start⟩ := r
    subst hempty hidle
    exact ⟨rfl, rfl⟩
  have hshows := feed_shows hm input
  rw [hcomplete] at hshows
  rw [feed_of_ne_nil hempty] at hok hswitched hshows ⊢
  have hfailed := consume_ne_failed (fun error => by rw [hidle]; rintro ⟨⟩) hok
  refine ⟨?_, limits_consume r input⟩
  rcases hshows.rests hfailed with hrests | hstopped
  · exact hrests
  · rw [isSwitched, hstopped] at hswitched
    cases hswitched

/-- A message that comes to be complete was complete before, or has just been completed. -/
theorem complete_of_phase {m : Message} {events : List Event}
    (h : (events.foldl Message.receive m).phase = .complete) :
    m.phase = .complete ∨ ∃ start, .messageComplete start ∈ events := by
  induction events generalizing m with
  | nil => exact .inl h
  | cons event events ih =>
    rcases ih h with hphase | ⟨start, hmem⟩
    · cases event with
      | messageComplete start => exact .inr ⟨start, List.mem_cons_self⟩
      | messageBegin => cases hphase
      | headersComplete start => cases hphase
      | _ => exact .inl hphase
    · exact .inr ⟨start, List.mem_cons_of_mem _ hmem⟩

end Reader

end HttpWire
